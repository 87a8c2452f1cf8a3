import TypedTree.Proofs.Arena.Pattern

/-!
# Collecting names on the way

A `Collector` goes through a pattern with one path, which it extends before it goes down into
an element of a tuple pattern and cuts back when it comes up again, and puts every name that
it meets at the end of one list. It leaves the path as it was (`collect_eq`), so it finds the
names that `Arena.names` lists, under the same paths and in the same order, or fails in the
same way (`names_eq_collect`).
-/

namespace TypedTree

/-- The way to the current pattern, the innermost position first, and the names so far. -/
structure Collector where
  path : List Nat
  names : List PatternName

namespace Collector

def push (c : Collector) (i : Nat) : Collector := { c with path := i :: c.path }

def pop (c : Collector) : Collector := { c with path := c.path.tail }

/-- Collects the names inside a pattern. The search fails below the given number of levels. -/
def collect (a : Arena) : Nat → Collector → PatternId → Except Fault Collector
  | 0, _, p => .error (.endlessWalk p.toAny)
  | depth + 1, c, p => do
    match ← a.node p with
    | ⟨.bindingPattern, (n : BindingPattern)⟩ => collect a depth c n.subpattern
    | ⟨.namePattern, _⟩ =>
      match p.narrow? (.only .namePattern) with
      | some name => return { c with names := c.names ++ [⟨c.path.reverse, name⟩] }
      | none => return c
    | ⟨.tuplePattern, (n : TuplePattern)⟩ =>
      n.elements.zipIdx.foldlM (fun c (e, i) => return (← collect a depth (c.push i) e.value).pop) c
    | _ => return c

/-- Puts the names among some parts at the end. -/
def add (a : Arena) (c : Collector) (parts : List PatternPart) : Collector :=
  { c with names := c.names ++ parts.filterMap a.nameOf? }

variable {a : Arena} {p : PatternId} {c : Collector} {depth : Nat}

theorem add_nil (c : Collector) : c.add a [] = c := by
  simp [add]

theorem add_append (c : Collector) (l l' : List PatternPart) :
    c.add a (l ++ l') = (c.add a l).add a l' := by
  simp [add]

/-- A pattern that is no name adds what is below it. -/
theorem map_add_of_kind_ne {k : Kind} {f : k.Fields} (hn : a.node? p = some ⟨k, f⟩)
    (hkind : k ≠ .namePattern) (position : List Nat)
    (found : Except Fault (List (List PatternPart))) :
    (found.map fun below => ⟨position, p⟩ :: below.flatten).map (c.add a) =
      found.map fun below => c.add a below.flatten := by
  cases found with
  | error e => rfl
  | ok below =>
      simp only [Except.map, add, List.filterMap_cons, Arena.nameOf?_of_kind_ne hn hkind]

theorem collect_of_node?_eq_none (hn : a.node? p = none) :
    collect a (depth + 1) c p = .error (.beyondArena a.size p.index) := by
  simp only [collect, Arena.node, hn]
  rfl

theorem collect_bindingPattern {n : BindingPattern}
    (hn : a.node? p = some ⟨.bindingPattern, n⟩) :
    collect a (depth + 1) c p = collect a depth c n.subpattern := by
  simp only [collect, Arena.node, hn]
  rfl

theorem collect_tuplePattern {n : TuplePattern} (hn : a.node? p = some ⟨.tuplePattern, n⟩) :
    collect a (depth + 1) c p =
      n.elements.zipIdx.foldlM
        (fun c (e, i) => return (← collect a depth (c.push i) e.value).pop) c := by
  simp only [collect, Arena.node, hn]
  rfl

/-- A pattern without parts is a name or adds nothing. -/
theorem collect_of_kind_ne {k : Kind} {f : k.Fields} (hn : a.node? p = some ⟨k, f⟩)
    (hbinding : k ≠ .bindingPattern) (htuple : k ≠ .tuplePattern) :
    collect a (depth + 1) c p = .ok (c.add a [⟨c.path, p⟩]) := by
  simp only [collect, Arena.node, hn, add, List.filterMap_cons, List.filterMap_nil]
  by_cases hname : k = .namePattern
  · subst hname
    simp only [Arena.nameOf?, Arena.kindAt?, hn, Option.map_some, if_true]
    cases p.narrow? (.only .namePattern) with
    | none => simp only [Option.map_none, List.append_nil]; rfl
    | some name => rfl
  · rw [Arena.nameOf?_of_kind_ne hn hname, List.append_nil]
    cases k
    case bindingPattern => exact absurd rfl hbinding
    case tuplePattern => exact absurd rfl htuple
    case namePattern => exact absurd rfl hname
    all_goals rfl

/-- What is collected in the elements of a tuple pattern are the names among their parts, and
the path is cut back after each of them. -/
theorem foldlM_elements_eq
    (hcollect : ∀ c p, collect a depth c p = (a.partsWithin depth ⟨c.path, p⟩).map (c.add a))
    (elements : List (Labeled PatternId × Nat)) :
    elements.foldlM (fun c (e, i) => return (← collect a depth (c.push i) e.value).pop) c =
      ((elements.map fun (e, i) => ⟨i :: c.path, e.value⟩).mapM (a.partsWithin depth)).map
        fun below => c.add a below.flatten := by
  rw [List.mapM_map]
  refine foldlM_eq_map_mapM (fun c' : Collector => c'.path = c.path) (add a) ?_
    (fun hpath _ => hpath) add_nil add_append rfl elements
  rintro c' hpath ⟨e, i⟩
  have hpush : (c'.push i).path = i :: c.path := congrArg (i :: ·) hpath
  simp only [hcollect, hpush, Function.comp_apply]
  cases a.partsWithin depth ⟨i :: c.path, e.value⟩ <;> rfl

/-- The names collected are those among the parts, and the path is what it was before. -/
theorem collect_eq (depth : Nat) (c : Collector) (p : PatternId) :
    collect a depth c p = (a.partsWithin depth ⟨c.path, p⟩).map (c.add a) := by
  induction depth generalizing c p with
  | zero => rfl
  | succ depth ih =>
      cases hn : a.node? p with
      | none =>
          rw [collect_of_node?_eq_none hn, Arena.partsWithin, preorderWithin_succ]
          simp only [Arena.partsOf, Arena.node, hn]
          rfl
      | some n =>
          obtain ⟨k, f⟩ := n
          by_cases hbinding : k = .bindingPattern
          · subst hbinding
            rw [collect_bindingPattern hn, ih,
              Arena.partsWithin_succ (Arena.partsOf_bindingPattern hn),
              map_add_of_kind_ne hn (by decide)]
            simp only [List.mapM_cons, List.mapM_nil]
            cases a.partsWithin depth ⟨c.path, BindingPattern.subpattern f⟩ with
            | error e => rfl
            | ok parts => exact congrArg (Except.ok ∘ c.add a) (List.append_nil parts).symm
          · by_cases htuple : k = .tuplePattern
            · subst htuple
              rw [collect_tuplePattern hn, foldlM_elements_eq ih,
                Arena.partsWithin_succ (Arena.partsOf_tuplePattern hn),
                map_add_of_kind_ne hn (by decide)]
            · rw [collect_of_kind_ne hn hbinding htuple,
                Arena.partsWithin_succ (Arena.partsOf_of_kind_ne hn hbinding htuple)]
              rfl

end Collector

/-- The names in a pattern are what a collector finds that starts with nothing. -/
theorem Arena.names_eq_collect {c : Class} (a : Arena) (id : Ident c) :
    a.names id =
      match id.narrow? (.category .pattern) with
      | some p => (Collector.collect a (a.size + 1) ⟨[], []⟩ p).map Collector.names
      | none => .ok [] := by
  cases hp : id.narrow? (.category .pattern) with
  | none => exact names_of_narrow?_eq_none hp
  | some p =>
      simp only [names_of_narrow? hp, names_eq_namesFrom, namesFrom, Collector.collect_eq]
      cases a.partsWithin (a.size + 1) ⟨[], p⟩ <;> rfl

end TypedTree
