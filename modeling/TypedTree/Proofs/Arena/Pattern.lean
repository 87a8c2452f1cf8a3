import Mathlib.Data.List.Basic
import TypedTree.Arena.PatternName
import TypedTree.Proofs.Arena.Walk

/-!
# Names in patterns

`LeadsAlong p path q` says that the tuple positions in `path` lead from the pattern `p` to the
pattern `q`, through binding patterns on the way. In a well-built arena `names` follows the
patterns down (`names_bindingPattern`, `names_tuplePattern`, `names_namePattern`,
`names_wildcardPattern`), so what is true of the names is shown along the patterns
(`WellBuilt.pattern_induction`): they are what some path leads to (`mem_names_iff`), the path of
each branches off to the left of the paths after it (`pairwise_names`), and a walk meets them in
the same order (`map_pattern_names`).
-/

namespace TypedTree

open scoped List

namespace PatternName

/-- The name as it is seen from further up, with the positions that lead down added. -/
def under (path : List Nat) (n : PatternName) : PatternName := ⟨path ++ n.path, n.pattern⟩

@[simp] theorem path_under (path : List Nat) (n : PatternName) :
    (n.under path).path = path ++ n.path := rfl

@[simp] theorem pattern_under (path : List Nat) (n : PatternName) :
    (n.under path).pattern = n.pattern := rfl

theorem flatMap_flatten_mapIdx_under {β : Type} (f : IdentOf .namePattern → List β)
    (nss : List (List PatternName)) :
    (nss.mapIdx fun i ns => ns.map (under [i])).flatten.flatMap (fun n => f n.pattern) =
      (nss.map (List.flatMap fun n => f n.pattern)).flatten := by
  rw [List.flatten_eq_flatMap, List.flatMap_assoc, List.mapIdx_eq_zipIdx_map, List.flatMap_map,
    ← List.flatMap_def]
  conv_rhs => rw [← List.zipIdx_map_fst 0 nss, List.flatMap_map]
  simp [List.flatMap_map]

end PatternName

/-- The two paths part somewhere, and there `x` goes further to the left. -/
def LeftOf (x y : List Nat) : Prop :=
  ∃ common i j r s, x = common ++ i :: r ∧ y = common ++ j :: s ∧ i < j

namespace LeftOf

variable {x y : List Nat}

theorem append (h : LeftOf x y) (path : List Nat) : LeftOf (path ++ x) (path ++ y) := by
  obtain ⟨common, i, j, r, s, rfl, rfl, hlt⟩ := h
  exact ⟨path ++ common, i, j, r, s, by simp, by simp, hlt⟩

theorem lt (h : LeftOf x y) : x < y := by
  obtain ⟨common, i, j, r, s, rfl, rfl, hlt⟩ := h
  exact List.append_left_lt (List.cons_lt_cons_iff.2 (.inl hlt))

theorem not_prefix (h : LeftOf x y) : ¬ x <+: y ∧ ¬ y <+: x := by
  obtain ⟨common, i, j, r, s, rfl, rfl, hlt⟩ := h
  simp only [List.prefix_append_right_inj, List.cons_prefix_cons]
  exact ⟨fun hij => Nat.ne_of_lt hlt hij.1, fun hji => Nat.ne_of_lt hlt hji.1.symm⟩

theorem ne (h : LeftOf x y) : x ≠ y := by
  rintro rfl
  exact h.not_prefix.1 List.prefix_rfl

end LeftOf

namespace Arena

variable {a : Arena} {p q : PatternId} {part : PatternPart} {path : List Nat}
  {names : List PatternName}

/-- The positions in `path` lead from one pattern to another: each of them picks an element of
a tuple pattern, and binding patterns are passed through. -/
inductive LeadsAlong (a : Arena) : PatternId → List Nat → PatternId → Prop
  | here (p : PatternId) : a.LeadsAlong p [] p
  | subpattern {p q : PatternId} {path : List Nat} {n : BindingPattern}
      (hn : a.node? p = some ⟨.bindingPattern, n⟩) (h : a.LeadsAlong n.subpattern path q) :
      a.LeadsAlong p path q
  | element {p q : PatternId} {path : List Nat} {i : Nat} {n : TuplePattern}
      {e : Labeled PatternId} (hn : a.node? p = some ⟨.tuplePattern, n⟩)
      (he : n.elements[i]? = some e) (h : a.LeadsAlong e.value path q) :
      a.LeadsAlong p (i :: path) q

section Parts

variable {position : List Nat}

theorem partsOf_bindingPattern {n : BindingPattern}
    (hn : a.node? p = some ⟨.bindingPattern, n⟩) :
    a.partsOf ⟨position, p⟩ = .ok [⟨position, n.subpattern⟩] := by
  simp only [partsOf, node, hn]
  rfl

theorem partsOf_tuplePattern {n : TuplePattern} (hn : a.node? p = some ⟨.tuplePattern, n⟩) :
    a.partsOf ⟨position, p⟩ =
      .ok (n.elements.zipIdx.map fun (e, i) => ⟨i :: position, e.value⟩) := by
  simp only [partsOf, node, hn]
  rfl

theorem partsOf_of_kind_ne {n : Node} (hn : a.node? p = some n)
    (hbinding : n.kind ≠ .bindingPattern) (htuple : n.kind ≠ .tuplePattern) :
    a.partsOf ⟨position, p⟩ = .ok [] := by
  obtain ⟨k, f⟩ := n
  simp only [partsOf, node, hn]
  cases k
  case bindingPattern => exact absurd rfl hbinding
  case tuplePattern => exact absurd rfl htuple
  all_goals rfl

theorem nameOf?_of_kind_ne {n : Node} (hn : a.node? p = some n) (hkind : n.kind ≠ .namePattern) :
    a.nameOf? ⟨position, p⟩ = none := by
  simp [nameOf?, kindAt?, hn, hkind]

theorem nameOf?_namePattern (hp : a.contains p = true) (hkind : p.kind = .namePattern) :
    a.nameOf? ⟨position, p⟩ = some ⟨position.reverse, IdentOf.ofIndex .namePattern p.index⟩ := by
  have hnarrow : p.narrow? (.only .namePattern) = some (IdentOf.ofIndex .namePattern p.index) :=
    Ident.narrow?_eq_some_iff.2 ⟨hkind.symm, rfl⟩
  have hstored : a.kindAt? p = some .namePattern := hkind ▸ contains_iff_kindAt?.1 hp
  rw [nameOf?, if_pos hstored, hnarrow]
  rfl

theorem WellBuilt.descends_partsOf (h : a.WellBuilt) :
    Descends a.partsOf (fun part => part.pattern.index < a.size)
      (fun part => part.pattern.index) where
  exists_parts {part} hpart := by
    obtain ⟨position, p⟩ := part
    obtain ⟨⟨k, f⟩, hn⟩ := exists_node?_of_lt hpart
    have hchild {q : PatternId} (hq : q.toAny ∈ Node.children ⟨k, f⟩) :
        q.index < a.size ∧ q.index < p.index := by
      obtain ⟨hcontains, hlt⟩ := h.child_of_node? (p := p.toAny) hn hq
      exact ⟨index_lt_of_contains hcontains, hlt⟩
    by_cases hbinding : k = .bindingPattern
    · subst hbinding
      refine ⟨_, partsOf_bindingPattern hn, List.forall_mem_singleton.2 (hchild ?_)⟩
      exact List.mem_singleton_self _
    · by_cases htuple : k = .tuplePattern
      · subst htuple
        refine ⟨_, partsOf_tuplePattern hn, List.forall_mem_map.2 fun e he => hchild ?_⟩
        exact List.mem_map_of_mem (List.fst_mem_of_mem_zipIdx he)
      · exact ⟨[], partsOf_of_kind_ne hn hbinding htuple, List.forall_mem_nil _⟩

end Parts

/-- A part and those that it holds, with the given number of levels. -/
def partsWithin (a : Arena) (depth : Nat) (part : PatternPart) : Except Fault (List PatternPart) :=
  preorderWithin a.partsOf (fun part => .endlessWalk part.pattern.toAny) depth part

theorem partsWithin_succ {parts : List PatternPart} (hparts : a.partsOf part = .ok parts)
    (depth : Nat) :
    a.partsWithin (depth + 1) part =
      (parts.mapM (a.partsWithin depth)).map fun below => part :: below.flatten := by
  rw [partsWithin, preorderWithin_succ, hparts]
  change (do let below ← parts.mapM (a.partsWithin depth); return part :: below.flatten) = _
  cases parts.mapM (a.partsWithin depth) <;> rfl

/-- The names that a part holds, under their paths in the whole pattern. -/
def namesFrom (a : Arena) (part : PatternPart) : Except Fault (List PatternName) :=
  (a.partsWithin (a.size + 1) part).map (List.filterMap a.nameOf?)

theorem names_of_narrow? {c : Class} {id : Ident c} {p : PatternId}
    (hp : id.narrow? (.category .pattern) = some p) : a.names id = a.names p := by
  have hself : p.narrow? (.category .pattern) = some p := Ident.narrow?_eq_some_iff.2 ⟨rfl, rfl⟩
  simp only [names, hp, hself]

theorem names_of_narrow?_eq_none {c : Class} {id : Ident c}
    (hp : id.narrow? (.category .pattern) = none) : a.names id = .ok [] := by
  simp only [names, hp]

theorem names_eq_namesFrom (p : PatternId) : a.names p = a.namesFrom ⟨[], p⟩ := by
  have hnarrow : p.narrow? (.category .pattern) = some p :=
    Ident.narrow?_eq_some_iff.2 ⟨rfl, rfl⟩
  simp only [names, hnarrow, namesFrom, partsWithin, preorder_eq]
  cases preorderWithin a.partsOf _ (a.size + 1) ⟨[], p⟩ <;> rfl

/-- The position of a part does no more than stand before the paths. -/
theorem namesFrom_eq (position : List Nat) (p : PatternId) :
    a.namesFrom ⟨position, p⟩ =
      (a.names p).map (List.map (PatternName.under position.reverse)) := by
  let shift (q : PatternPart) : PatternPart := ⟨q.position ++ position, q.pattern⟩
  have hparts (q : PatternPart) : a.partsOf (shift q) = (a.partsOf q).map (List.map shift) := by
    obtain ⟨pos, q⟩ := q
    cases hn : a.node? q with
    | none => simp [shift, partsOf, node, hn, Except.map, bind, Except.bind]
    | some n =>
        obtain ⟨k, f⟩ := n
        by_cases hbinding : k = .bindingPattern
        · subst hbinding
          rw [partsOf_bindingPattern hn, partsOf_bindingPattern hn]
          rfl
        · by_cases htuple : k = .tuplePattern
          · subst htuple
            rw [partsOf_tuplePattern hn, partsOf_tuplePattern hn]
            simp [shift, Except.map, Function.comp_def]
          · rw [partsOf_of_kind_ne hn hbinding htuple, partsOf_of_kind_ne hn hbinding htuple]
            rfl
  have hname (q : PatternPart) :
      a.nameOf? (shift q) = (a.nameOf? q).map (PatternName.under position.reverse) := by
    simp only [nameOf?, shift]
    split
    · cases q.pattern.narrow? (.only .namePattern) <;> simp [PatternName.under]
    · rfl
  have hlisting : a.partsWithin (a.size + 1) ⟨position, p⟩ =
      (a.partsWithin (a.size + 1) ⟨[], p⟩).map (List.map shift) :=
    map_preorderWithin hparts (fun _ => rfl) ⟨[], p⟩
  rw [names_eq_namesFrom, namesFrom, namesFrom, hlisting]
  cases a.partsWithin (a.size + 1) ⟨[], p⟩ with
  | error e => rfl
  | ok l => simp [Except.map, List.filterMap_map, List.map_filterMap, hname]

theorem WellBuilt.exists_partsWithin (h : a.WellBuilt) (hp : part.pattern.index < a.size)
    {depth : Nat} (hdepth : part.pattern.index < depth) :
    ∃ parts, a.partsWithin depth part = .ok parts :=
  h.descends_partsOf.exists_preorderWithin hp hdepth

theorem WellBuilt.namesFrom_eq_append (h : a.WellBuilt) (hp : part.pattern.index < a.size)
    {parts : List PatternPart} {nss : List (List PatternName)} (hparts : a.partsOf part = .ok parts)
    (hnames : parts.map a.namesFrom = nss.map .ok) :
    a.namesFrom part = .ok ((a.nameOf? part).toList ++ nss.flatten) := by
  have hlists : ∀ q ∈ parts, ∃ l, a.partsWithin (a.size + 1) q = .ok l := by
    intro q hq
    have hlt := (h.descends_partsOf.of_mem hp hparts hq).1
    exact h.exists_partsWithin hlt (Nat.lt_succ_of_lt hlt)
  obtain ⟨below, hbelow⟩ := exists_map_eq_map_ok hlists
  have heq : nss.map Except.ok = (below.map (List.filterMap a.nameOf?)).map Except.ok :=
    hnames.symm.trans (map_of_map_eq_map_ok hbelow _)
  obtain rfl := List.map_injective_iff.2 (fun _ _ => Except.ok.inj) heq
  have hlisting : a.partsWithin (a.size + 1) part = .ok (part :: below.flatten) :=
    h.descends_partsOf.preorderWithin_eq_cons hp (Nat.lt_succ_of_lt hp) hparts hbelow
  rw [namesFrom, hlisting, Except.map, List.filterMap_cons, List.filterMap_flatten]
  cases a.nameOf? part <;> rfl

theorem WellBuilt.exists_names (h : a.WellBuilt) (hp : p.index < a.size) :
    ∃ names, a.names p = .ok names := by
  obtain ⟨parts, hparts⟩ : ∃ parts, a.partsWithin (a.size + 1) ⟨[], p⟩ = .ok parts :=
    h.exists_partsWithin hp (Nat.lt_succ_of_lt hp)
  exact ⟨_, by rw [names_eq_namesFrom, namesFrom, hparts]; rfl⟩

theorem WellBuilt.contains_subpattern (h : a.WellBuilt) {n : BindingPattern}
    (hn : a.node? p = some ⟨.bindingPattern, n⟩) : a.contains n.subpattern = true := by
  rw [← contains_toAny]
  exact (h.child_of_node? (p := p.toAny) hn (List.mem_singleton_self _)).1

theorem WellBuilt.contains_element (h : a.WellBuilt) {n : TuplePattern}
    (hn : a.node? p = some ⟨.tuplePattern, n⟩) {e : Labeled PatternId} (he : e ∈ n.elements) :
    a.contains e.value = true := by
  rw [← contains_toAny]
  exact (h.child_of_node? (p := p.toAny) hn (List.mem_map_of_mem he)).1

section Equations

variable (h : a.WellBuilt) (hp : a.contains p = true)

include h hp

theorem WellBuilt.names_bindingPattern {n : BindingPattern}
    (hn : a.node? p = some ⟨.bindingPattern, n⟩) : a.names p = a.names n.subpattern := by
  obtain ⟨ns, hns⟩ := h.exists_names (index_lt_of_contains (h.contains_subpattern hn))
  have hparts : [(⟨[], n.subpattern⟩ : PatternPart)].map a.namesFrom = [ns].map .ok := by
    rw [List.map_singleton, ← names_eq_namesFrom, hns]
    rfl
  rw [hns, names_eq_namesFrom, h.namesFrom_eq_append (index_lt_of_contains hp)
    (partsOf_bindingPattern hn) hparts, nameOf?_of_kind_ne hn Kind.noConfusion]
  simp

theorem WellBuilt.names_tuplePattern {n : TuplePattern}
    (hn : a.node? p = some ⟨.tuplePattern, n⟩) {nss : List (List PatternName)}
    (hnames : (n.elements.map fun e => a.names e.value) = nss.map .ok) :
    a.names p = .ok (nss.mapIdx fun i ns => ns.map (PatternName.under [i])).flatten := by
  have hparts : (n.elements.zipIdx.map fun (e, i) => (⟨[i], e.value⟩ : PatternPart)).map
      a.namesFrom = (nss.mapIdx fun i ns => ns.map (PatternName.under [i])).map .ok := by
    refine List.ext_getElem? fun i => ?_
    have hi := congrArg (Option.map (Except.map (List.map (PatternName.under [i]))) ·[i]?) hnames
    simpa [namesFrom_eq, Function.comp_def, Except.map] using hi
  rw [names_eq_namesFrom, h.namesFrom_eq_append (index_lt_of_contains hp)
    (partsOf_tuplePattern hn) hparts, nameOf?_of_kind_ne hn Kind.noConfusion]
  simp

theorem WellBuilt.names_of_kind_ne {n : Node} (hn : a.node? p = some n)
    (hbinding : n.kind ≠ .bindingPattern) (htuple : n.kind ≠ .tuplePattern) :
    a.names p = .ok (a.nameOf? ⟨[], p⟩).toList := by
  have hparts : ([] : List PatternPart).map a.namesFrom =
      ([] : List (List PatternName)).map .ok := rfl
  rw [names_eq_namesFrom, h.namesFrom_eq_append (index_lt_of_contains hp)
    (partsOf_of_kind_ne hn hbinding htuple) hparts]
  simp

end Equations

/-- What holds of the names and the wildcards, and of other patterns if it holds of those
inside, holds of every pattern of a well-built arena. -/
theorem WellBuilt.pattern_induction (h : a.WellBuilt)
    {motive : (p : PatternId) → a.contains p = true → Prop}
    (subpattern : ∀ p hp n (hn : a.node? p = some ⟨.bindingPattern, n⟩),
      motive (BindingPattern.subpattern n) (h.contains_subpattern hn) → motive p hp)
    (elements : ∀ p hp n (hn : a.node? p = some ⟨.tuplePattern, n⟩),
      (∀ e, ∀ he : e ∈ TuplePattern.elements n, motive e.value (h.contains_element hn he)) →
        motive p hp)
    (name : ∀ p hp n, a.node? p = some ⟨.namePattern, n⟩ → motive p hp)
    (wildcard : ∀ p hp n, a.node? p = some ⟨.wildcardPattern, n⟩ → motive p hp)
    (p : PatternId) (hp : a.contains p = true) : motive p hp := by
  obtain ⟨⟨k, f⟩, hn, hkind⟩ := contains_iff.1 hp
  have hlt {q : PatternId} (hq : q.toAny ∈ Node.children ⟨k, f⟩) : q.index < p.index :=
    (h.child_of_node? (p := p.toAny) hn hq).2
  have hpattern := p.admitted
  rw [← hkind] at hpattern
  cases k
  case bindingPattern =>
    have hbelow := hlt (List.mem_singleton_self _)
    exact subpattern p hp f hn (pattern_induction h subpattern elements name wildcard _ _)
  case tuplePattern =>
    refine elements p hp f hn fun e he => ?_
    have hbelow := hlt (List.mem_map_of_mem he)
    exact pattern_induction h subpattern elements name wildcard _ _
  case namePattern => exact name p hp f hn
  case wildcardPattern => exact wildcard p hp f hn
  all_goals exact absurd hpattern (by simp [Class.admits]; decide)
termination_by p.index

section Leads

theorem leadsAlong_bindingPattern_iff {b : BindingPattern}
    (hn : a.node? p = some ⟨.bindingPattern, b⟩) :
    a.LeadsAlong p path q ↔ path = [] ∧ q = p ∨ a.LeadsAlong b.subpattern path q := by
  constructor
  · intro h
    cases h with
    | here => exact .inl ⟨rfl, rfl⟩
    | subpattern hn' h =>
        cases hn.symm.trans hn'
        exact .inr h
    | element hn' => cases hn.symm.trans hn'
  · rintro (⟨rfl, rfl⟩ | h)
    · exact .here _
    · exact .subpattern hn h

theorem leadsAlong_tuplePattern_iff {t : TuplePattern}
    (hn : a.node? p = some ⟨.tuplePattern, t⟩) :
    a.LeadsAlong p path q ↔ path = [] ∧ q = p ∨
      ∃ i e rest, t.elements[i]? = some e ∧ path = i :: rest ∧ a.LeadsAlong e.value rest q := by
  constructor
  · intro h
    cases h with
    | here => exact .inl ⟨rfl, rfl⟩
    | subpattern hn' => cases hn.symm.trans hn'
    | element hn' he h =>
        cases hn.symm.trans hn'
        exact .inr ⟨_, _, _, he, rfl, h⟩
  · rintro (⟨rfl, rfl⟩ | ⟨i, e, rest, he, rfl, h⟩)
    · exact .here _
    · exact .element hn he h

theorem leadsAlong_iff_of_kind_ne {m : Node} (hn : a.node? p = some m)
    (hbinding : m.kind ≠ .bindingPattern) (htuple : m.kind ≠ .tuplePattern) :
    a.LeadsAlong p path q ↔ path = [] ∧ q = p := by
  constructor
  · intro h
    cases h with
    | here => exact ⟨rfl, rfl⟩
    | subpattern hn' =>
        cases hn.symm.trans hn'
        exact absurd rfl hbinding
    | element hn' =>
        cases hn.symm.trans hn'
        exact absurd rfl htuple
  · rintro ⟨rfl, rfl⟩
    exact .here _

end Leads

section Names

variable {n : IdentOf .namePattern}

theorem widen_ne_of_node? {m : Node} (hp : a.contains p = true) (hn : a.node? p = some m)
    (hkind : m.kind ≠ .namePattern) : n.widen ≠ p := by
  rintro rfl
  exact hkind ((kind_eq_of_node? hp hn).trans n.kind_eq)

theorem WellBuilt.names_namePattern (h : a.WellBuilt) (hp : a.contains p = true)
    {m : NamePattern} (hn : a.node? p = some ⟨.namePattern, m⟩) :
    a.names p = .ok [⟨[], IdentOf.ofIndex .namePattern p.index⟩] := by
  rw [h.names_of_kind_ne hp hn Kind.noConfusion Kind.noConfusion,
    nameOf?_namePattern hp (kind_eq_of_node? hp hn).symm]
  rfl

theorem WellBuilt.names_wildcardPattern (h : a.WellBuilt) (hp : a.contains p = true)
    {m : WildcardPattern} (hn : a.node? p = some ⟨.wildcardPattern, m⟩) : a.names p = .ok [] := by
  rw [h.names_of_kind_ne hp hn Kind.noConfusion Kind.noConfusion,
    nameOf?_of_kind_ne hn Kind.noConfusion]
  rfl

theorem WellBuilt.exists_names_elements (h : a.WellBuilt) {t : TuplePattern}
    (hn : a.node? p = some ⟨.tuplePattern, t⟩) :
    ∃ nss : List (List PatternName),
      (t.elements.map fun e => a.names e.value) = nss.map .ok :=
  exists_map_eq_map_ok fun _ he => h.exists_names (index_lt_of_contains (h.contains_element hn he))

theorem WellBuilt.mem_names_iff (h : a.WellBuilt) (hp : a.contains p = true)
    (hnames : a.names p = .ok names) :
    ⟨path, n⟩ ∈ names ↔ a.LeadsAlong p path n.widen := by
  induction p, hp using h.pattern_induction generalizing names path with
  | subpattern p hp b hn ih =>
      rw [h.names_bindingPattern hp hn] at hnames
      rw [leadsAlong_bindingPattern_iff hn, ih hnames]
      exact (or_iff_right fun hhere => widen_ne_of_node? hp hn Kind.noConfusion hhere.2).symm
  | elements p hp t hn ih =>
      obtain ⟨nss, hnss⟩ := h.exists_names_elements hn
      rw [h.names_tuplePattern hp hn hnss] at hnames
      cases hnames
      rw [leadsAlong_tuplePattern_iff hn,
        or_iff_right fun hhere => widen_ne_of_node? hp hn Kind.noConfusion hhere.2]
      simp only [List.mem_flatten, List.mem_mapIdx]
      constructor
      · rintro ⟨_, ⟨i, hi, rfl⟩, hmem⟩
        obtain ⟨m, hm, heq⟩ := List.mem_map.1 hmem
        obtain ⟨e, he, hok⟩ :=
          (getElem?_eq_some_iff_of_map_eq_map_ok hnss).1 (List.getElem?_eq_getElem hi)
        cases heq
        exact ⟨i, e, m.path, he, rfl, (ih e (List.mem_of_getElem? he) hok).1 hm⟩
      · rintro ⟨i, e, rest, he, rfl, hleads⟩
        have hemem := List.mem_of_getElem? he
        obtain ⟨ns, hok⟩ := h.exists_names (index_lt_of_contains (h.contains_element hn hemem))
        obtain ⟨hi, rfl⟩ := List.getElem?_eq_some_iff.1
          ((getElem?_eq_some_iff_of_map_eq_map_ok hnss).2 ⟨e, he, hok⟩)
        have hmem := (ih e hemem hok).2 hleads
        exact ⟨_, ⟨i, hi, rfl⟩, List.mem_map.2 ⟨_, hmem, rfl⟩⟩
  | name p hp m hn =>
      rw [h.names_namePattern hp hn] at hnames
      cases hnames
      rw [leadsAlong_iff_of_kind_ne hn Kind.noConfusion Kind.noConfusion, List.mem_singleton,
        PatternName.mk.injEq]
      refine and_congr_right fun _ => ⟨?_, ?_⟩
      · rintro rfl
        exact Ident.ext_index (kind_eq_of_node? hp hn) rfl
      · rintro rfl
        exact IdentOf.eq_of_index_eq rfl
  | wildcard p hp m hn =>
      rw [h.names_wildcardPattern hp hn] at hnames
      cases hnames
      rw [leadsAlong_iff_of_kind_ne hn Kind.noConfusion Kind.noConfusion]
      exact iff_of_false List.not_mem_nil fun hhere =>
        widen_ne_of_node? hp hn Kind.noConfusion hhere.2

/-- The path to a name branches off to the left of the paths to the names after it. -/
theorem WellBuilt.pairwise_names (h : a.WellBuilt) (hp : a.contains p = true)
    (hnames : a.names p = .ok names) : names.Pairwise fun m n => LeftOf m.path n.path := by
  induction p, hp using h.pattern_induction generalizing names with
  | subpattern p hp b hn ih =>
      rw [h.names_bindingPattern hp hn] at hnames
      exact ih hnames
  | elements p hp t hn ih =>
      obtain ⟨nss, hnss⟩ := h.exists_names_elements hn
      rw [h.names_tuplePattern hp hn hnss] at hnames
      cases hnames
      refine List.pairwise_flatten.2 ⟨fun l hl => ?_, List.pairwise_iff_getElem.2 ?_⟩
      · -- within one element the position stands before both paths
        obtain ⟨i, hi, rfl⟩ := List.mem_mapIdx.1 hl
        obtain ⟨e, he, hok⟩ :=
          (getElem?_eq_some_iff_of_map_eq_map_ok hnss).1 (List.getElem?_eq_getElem hi)
        have hpairwise := ih e (List.mem_of_getElem? he) hok
        exact List.pairwise_map.2 (hpairwise.imp fun hleft => hleft.append [i])
      · -- between two elements the positions decide
        intro i j hi hj hlt
        simp only [List.getElem_mapIdx, List.forall_mem_map]
        exact fun m _ n _ => ⟨[], i, j, m.path, n.path, rfl, rfl, hlt⟩
  | name p hp m hn =>
      rw [h.names_namePattern hp hn] at hnames
      cases hnames
      exact List.pairwise_singleton _ _
  | wildcard p hp m hn =>
      rw [h.names_wildcardPattern hp hn] at hnames
      cases hnames
      exact .nil

def varOfName? (a : Arena) (n : IdentOf .namePattern) : Option (IdentOf .varDecl) :=
  match a.get? n with
  | some (f : NamePattern) => some f.decl
  | none => none

def nodesOfName (a : Arena) (n : IdentOf .namePattern) : List NodeId :=
  n.toAny :: (a.varOfName? n).toList.map Ident.toAny

theorem varOfName?_eq_some_iff {n : IdentOf .namePattern} {v : IdentOf .varDecl} :
    a.varOfName? n = some v ↔ a.get? n = some ({ decl := v } : NamePattern) := by
  unfold varOfName?
  cases a.get? n with
  | none => simp
  | some f =>
      constructor
      · rintro ⟨⟩
        rfl
      · rintro ⟨⟩
        rfl

theorem WellBuilt.walk_namePattern (h : a.WellBuilt) {m : NamePattern}
    (hn : a.node? p = some ⟨.namePattern, m⟩) {l : List NodeId}
    (hl : a.walk (fun _ => false) p.toAny = .ok l) : l = [p.toAny, m.decl.toAny] := by
  obtain ⟨walks, hwalks, rfl⟩ := h.exists_walks_of_walk hn hl
  obtain ⟨w, rfl, hw⟩ := List.map_eq_singleton_iff.1 hwalks.symm
  have hdecl : a.contains m.decl.toAny = true :=
    (h.child_of_node? (p := p.toAny) hn (List.mem_singleton_self _)).1
  obtain ⟨⟨k, f⟩, hf, hkind⟩ := contains_iff.1 hdecl
  obtain rfl : k = .varDecl := hkind.trans m.decl.kind_eq
  obtain ⟨walks, hnone, rfl⟩ := h.exists_walks_of_walk hf hw.symm
  obtain rfl : walks = [] := List.map_eq_nil_iff.1 hnone.symm
  rfl

/-- A walk through a pattern meets the names in order, each with its variable, and besides
them only other patterns. -/
theorem WellBuilt.filterMap_walk (h : a.WellBuilt) (hp : a.contains p = true)
    (hnames : a.names p = .ok names) {l : List NodeId}
    (hl : a.walk (fun _ => false) p.toAny = .ok l) {β : Type} {f : NodeId → Option β}
    (hf : ∀ q : PatternId, q.kind ≠ .namePattern → f q.toAny = none) :
    l.filterMap f = names.flatMap fun n => (a.nodesOfName n.pattern).filterMap f := by
  induction p, hp using h.pattern_induction generalizing names l with
  | subpattern p hp b hn ih =>
      rw [h.names_bindingPattern hp hn] at hnames
      obtain ⟨walks, hwalks, rfl⟩ := h.exists_walks_of_walk hn hl
      obtain ⟨w, rfl, hw⟩ := List.map_eq_singleton_iff.1 hwalks.symm
      have hnone := hf p fun hkind => Kind.noConfusion ((kind_eq_of_node? hp hn).trans hkind)
      simpa [hnone] using ih hnames hw.symm
  | elements p hp t hn ih =>
      obtain ⟨nss, hnss⟩ := h.exists_names_elements hn
      rw [h.names_tuplePattern hp hn hnss] at hnames
      cases hnames
      obtain ⟨walks, hwalks, rfl⟩ := h.exists_walks_of_walk hn hl
      have hnone := hf p fun hkind => Kind.noConfusion ((kind_eq_of_node? hp hn).trans hkind)
      have hchildren : Node.children ⟨.tuplePattern, t⟩ = t.elements.map fun e => e.value.toAny :=
        rfl
      rw [hchildren, List.map_map] at hwalks
      have heach : walks.map (List.filterMap f) =
          nss.map (List.flatMap fun n => (a.nodesOfName n.pattern).filterMap f) :=
        map_eq_map_of_map_eq_map_ok hwalks hnss fun e he _ _ hw hns => ih e he hns hw
      rw [List.filterMap_cons_none hnone, List.filterMap_flatten, heach]
      exact (PatternName.flatMap_flatten_mapIdx_under
        (fun n => (a.nodesOfName n).filterMap f) nss).symm
  | name p hp m hn =>
      rw [h.names_namePattern hp hn] at hnames
      cases hnames
      have hget : a.get? (IdentOf.ofIndex .namePattern p.index) = some m :=
        get?_eq_some_iff.2 ((node?_congr rfl).trans hn)
      have hname : (IdentOf.ofIndex .namePattern p.index).toAny = p.toAny :=
        IdentOf.toAny_ofIndex (kind_eq_of_node? hp hn).symm
      rw [h.walk_namePattern hn hl, List.flatMap_singleton, nodesOfName,
        varOfName?_eq_some_iff.2 hget, hname]
      rfl
  | wildcard p hp m hn =>
      rw [h.names_wildcardPattern hp hn] at hnames
      cases hnames
      obtain ⟨walks, hwalks, rfl⟩ := h.exists_walks_of_walk hn hl
      obtain rfl : walks = [] := List.map_eq_nil_iff.1 hwalks.symm
      exact List.filterMap_cons_none
        (hf p fun hkind => Kind.noConfusion ((kind_eq_of_node? hp hn).trans hkind))

theorem filterMap_nodesOfName (n : IdentOf .namePattern) :
    (a.nodesOfName n).filterMap (·.narrow? (.only .namePattern)) = [n] := by
  have hself : n.toAny.narrow? (.only .namePattern) = some n :=
    Ident.narrow?_eq_some_iff_toAny.2 rfl
  have hdecl (v : IdentOf .varDecl) : v.toAny.narrow? (.only .namePattern) = none := by
    rw [Ident.narrow?_eq_none_iff, Ident.kind_toAny, v.kind_eq]
    rfl
  simp [nodesOfName, hself, hdecl]

theorem WellBuilt.map_pattern_names (h : a.WellBuilt) (hp : a.contains p = true)
    (hnames : a.names p = .ok names) {l : List NodeId}
    (hl : a.walk (fun _ => false) p.toAny = .ok l) :
    names.map (·.pattern) = l.filterMap (·.narrow? (.only .namePattern)) := by
  rw [h.filterMap_walk hp hnames hl fun q hq => ?_]
  · simp only [filterMap_nodesOfName, List.map_eq_flatMap]
  · rw [Ident.narrow?_eq_none_iff]
    exact beq_false_of_ne hq

/-- The names are what the paths lead to, their paths part from each other and increase, and
a walk that records name patterns records the same ones. -/
structure NamesInOrder (a : Arena) (p : PatternId) (names : List PatternName) : Prop where
  mem_iff : ∀ path n, ⟨path, n⟩ ∈ names ↔ a.LeadsAlong p path n.widen
  nodup_paths : (names.map (·.path)).Nodup
  prefixFree : (names.map (·.path)).Pairwise fun x y => ¬ x <+: y ∧ ¬ y <+: x
  sorted : (names.map (·.path)).Pairwise (· < ·)
  recorded : ∃ l, a.walk (fun _ => false) p.toAny = .ok l ∧
    names.map (·.pattern) = l.filterMap (·.narrow? (.only .namePattern))

/-- `names` lists the names of every pattern of a well-built arena, from left to right. -/
theorem WellBuilt.exists_namesInOrder (h : a.WellBuilt) (hp : a.contains p = true) :
    ∃ names, a.names p = .ok names ∧ a.NamesInOrder p names := by
  obtain ⟨names, hnames⟩ := h.exists_names (index_lt_of_contains hp)
  obtain ⟨l, hl, -⟩ := h.exists_walk_toAny hp
  have hleft : (names.map (·.path)).Pairwise LeftOf :=
    List.pairwise_map.2 (h.pairwise_names hp hnames)
  have hsorted : (names.map (·.path)).Pairwise (· < ·) := hleft.imp LeftOf.lt
  exact ⟨names, hnames,
    { mem_iff := fun _ _ => h.mem_names_iff hp hnames
      nodup_paths := hleft.imp LeftOf.ne
      prefixFree := hleft.imp LeftOf.not_prefix
      sorted := hsorted
      recorded := ⟨l, hl, h.map_pattern_names hp hnames hl⟩ }⟩

/-- A binding pattern of a tuple that holds one name twice and a tuple of a name and a wildcard
between. -/
def nestedPattern : Arena :=
  [⟨.varDecl, ({ name := .empty } : NamedDecl)⟩,
    ⟨.namePattern, ({ decl := .ofIndex .varDecl 0 } : NamePattern)⟩,
    ⟨.varDecl, ({ name := .empty } : NamedDecl)⟩,
    ⟨.namePattern, ({ decl := .ofIndex .varDecl 2 } : NamePattern)⟩,
    ⟨.wildcardPattern, ({} : WildcardPattern)⟩,
    ⟨.tuplePattern, ({ elements := [
      ⟨none, (IdentOf.ofIndex .namePattern 3).widen⟩,
      ⟨none, ⟨.wildcardPattern, 4, rfl⟩⟩] } : TuplePattern)⟩,
    ⟨.bindingPattern, ({ introducer := .let, subpattern := ⟨.tuplePattern, 5, rfl⟩ } :
      BindingPattern)⟩,
    ⟨.tuplePattern, ({ elements := [
      ⟨none, (IdentOf.ofIndex .namePattern 1).widen⟩,
      ⟨none, ⟨.bindingPattern, 6, rfl⟩⟩,
      ⟨none, (IdentOf.ofIndex .namePattern 1).widen⟩] } : TuplePattern)⟩,
    ⟨.bindingPattern, ({ introducer := .let, subpattern := ⟨.tuplePattern, 7, rfl⟩ } :
      BindingPattern)⟩].foldl
    (fun a n => (a.insert n .dummy).2) ∅

theorem wellBuilt_nestedPattern : nestedPattern.WellBuilt := by
  unfold nestedPattern
  repeat refine .insert ?_ (by decide)
  exact .empty

def nestedNames : List PatternName :=
  [⟨[0], .ofIndex .namePattern 1⟩, ⟨[1, 0], .ofIndex .namePattern 3⟩,
    ⟨[2], .ofIndex .namePattern 1⟩]

theorem names_nestedPattern :
    nestedPattern.names (⟨.bindingPattern, 8, rfl⟩ : PatternId) = .ok nestedNames := by
  rw [names_eq_namesFrom, namesFrom, partsWithin]
  rfl

theorem namesInOrder_nestedPattern :
    nestedPattern.WellBuilt ∧
      nestedPattern.contains (⟨.bindingPattern, 8, rfl⟩ : PatternId) = true ∧
      nestedPattern.NamesInOrder ⟨.bindingPattern, 8, rfl⟩ nestedNames := by
  obtain ⟨names, hnames, horder⟩ :=
    wellBuilt_nestedPattern.exists_namesInOrder (p := ⟨.bindingPattern, 8, rfl⟩) (by decide)
  cases hnames.symm.trans names_nestedPattern
  exact ⟨wellBuilt_nestedPattern, by decide, horder⟩

end Names

end Arena

end TypedTree
