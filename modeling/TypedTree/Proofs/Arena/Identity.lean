import TypedTree.Arena.Basic

/-!
# Identities that an arena knows

`Arena.contains` holds of an identity whose claimed kind is the one stored at its
position. Such identities are exactly the ones that `ids` and `idsOf` list, two of
them at one position are equal, and an insertion adds one of them and keeps the rest.
-/

namespace TypedTree

namespace Ident

variable {c d : Class}

theorem ext_index {x y : Ident c} (hkind : x.kind = y.kind) (hindex : x.index = y.index) :
    x = y := by
  cases x
  cases y
  simp_all

theorem eq_of_toAny_eq {x y : Ident c} (h : x.toAny = y.toAny) : x = y :=
  ext_index (congrArg Ident.kind h :) (congrArg Ident.index h :)

theorem narrow?_eq_some_iff_toAny {x : NodeId} {e : Ident c} :
    x.narrow? c = some e ↔ e.toAny = x := by
  rw [narrow?_eq_some_iff]
  constructor
  · rintro ⟨hkind, hindex⟩
    exact ext_index hkind hindex
  · rintro rfl
    exact ⟨rfl, rfl⟩

theorem narrow?_eq_none_iff {x : Ident c} : x.narrow? d = none ↔ d.admits x.kind = false := by
  rw [← isSome_narrow?, Option.isSome_eq_false_iff, Option.isNone_iff_eq_none]

end Ident

theorem IdentOf.eq_of_index_eq {k : Kind} {x y : IdentOf k} (h : x.index = y.index) : x = y :=
  Ident.ext_index (by rw [x.kind_eq, y.kind_eq]) h

theorem IdentOf.kind_eq_of_toAny_eq {k : Kind} {c : Class} {id : IdentOf k} {x : Ident c}
    (h : x.toAny = id.toAny) : x.kind = k :=
  (congrArg Ident.kind h).trans id.kind_eq

theorem IdentOf.toAny_ofIndex {k : Kind} {c : Class} {x : Ident c} (h : x.kind = k) :
    (IdentOf.ofIndex k x.index).toAny = x.toAny :=
  Ident.ext_index h.symm rfl

theorem IdentOf.kind_widen_ne {k k' : Kind} {c : Class} [(Class.only k).Within c] (id : IdentOf k)
    (h : k ≠ k') : (id.widen : Ident c).kind ≠ k' := by
  rwa [Ident.kind_widen, id.kind_eq]

theorem Node.fieldsAs?_eq_some_iff {n : Node} {k : Kind} {f : k.Fields} :
    n.fieldsAs? k = some f ↔ n = ⟨k, f⟩ := by
  constructor
  · intro h
    obtain ⟨k', f'⟩ := n
    unfold fieldsAs? at h
    split at h
    · next hkind =>
        obtain rfl : k' = k := hkind
        cases h
        rfl
    · cases h
  · rintro rfl
    exact fieldsAs?_self k f

namespace Arena

variable {a : Arena} {c d : Class}

theorem contains_iff_kindAt? {id : Ident c} :
    a.contains id = true ↔ a.kindAt? id = some id.kind := by
  simp [contains]

theorem node?_congr {x : Ident c} {y : Ident d} (h : x.index = y.index) :
    a.node? x = a.node? y := by
  simp [node?, h]

theorem kindAt?_congr {x : Ident c} {y : Ident d} (h : x.index = y.index) :
    a.kindAt? x = a.kindAt? y := by
  simp [kindAt?, node?_congr h]

theorem contains_congr {x : Ident c} {y : Ident d} (hkind : x.kind = y.kind)
    (hindex : x.index = y.index) : a.contains x = a.contains y := by
  simp [contains, kindAt?_congr hindex, hkind]

@[simp] theorem contains_toAny (id : Ident c) : a.contains id.toAny = a.contains id :=
  contains_congr rfl rfl

@[simp] theorem contains_widen (id : Ident c) [c.Within d] :
    a.contains (id.widen : Ident d) = a.contains id :=
  contains_congr rfl rfl

/-- Two identities of one class that the arena knows differ in their positions. -/
theorem eq_of_contains {x y : Ident c} (hx : a.contains x = true) (hy : a.contains y = true)
    (h : x.index = y.index) : x = y := by
  rw [contains_iff_kindAt?] at hx hy
  rw [kindAt?_congr h] at hx
  have hkind : y.kind = x.kind := Option.some.inj (hy.symm.trans hx)
  exact Ident.ext_index hkind.symm h

theorem mem_nodes_of_node? {id : Ident c} {n : Node} (h : a.node? id = some n) :
    n ∈ a.nodes.toList :=
  Array.mem_toList_iff.2 (Array.mem_of_getElem? h)

theorem index_lt_of_node? {id : Ident c} {n : Node} (h : a.node? id = some n) :
    id.index < a.size :=
  (Array.getElem?_eq_some_iff.1 h).1

theorem kind_eq_of_node? {id : Ident c} {n : Node} (hid : a.contains id = true)
    (hn : a.node? id = some n) : n.kind = id.kind := by
  obtain ⟨n', hn', hkind⟩ := contains_iff.1 hid
  obtain rfl : n = n' := Option.some.inj (hn.symm.trans hn')
  exact hkind

theorem exists_node?_of_lt {id : Ident c} (h : id.index < a.size) : ∃ n, a.node? id = some n :=
  ⟨_, Array.getElem?_eq_getElem h⟩

/-- A position with a node has a span too. -/
theorem exists_span_of_lt {id : Ident c} (h : id.index < a.size) : ∃ s, a.span id = .ok s :=
  ⟨_, span_eq_ok_iff.2 (Array.getElem?_eq_getElem (a.aligned.symm ▸ h))⟩

def entries (a : Arena) : List (Node × Span) := a.nodes.toList.zip a.spans.toList

theorem length_entries (a : Arena) : a.entries.length = a.size := by
  rw [entries, List.length_zip, Array.length_toList, Array.length_toList, a.aligned, Nat.min_self,
    size]

theorem map_fst_entries (a : Arena) : a.entries.map Prod.fst = a.nodes.toList :=
  List.map_fst_zip (Nat.le_of_eq a.aligned.symm)

theorem map_snd_entries (a : Arena) : a.entries.map Prod.snd = a.spans.toList :=
  List.map_snd_zip (Nat.le_of_eq a.aligned)

theorem getElem?_entries_eq_some_iff {i : Nat} {n : Node} {s : Span} :
    a.entries[i]? = some (n, s) ↔ a.nodes[i]? = some n ∧ a.spans[i]? = some s := by
  rw [entries, List.getElem?_zip_eq_some, Array.getElem?_toList, Array.getElem?_toList]

theorem index_lt_of_contains {id : Ident c} (h : a.contains id = true) : id.index < a.size := by
  obtain ⟨n, hn, _⟩ := contains_iff.1 h
  exact index_lt_of_node? hn

theorem index_lt_of_kindAt? {id : Ident c} {k : Kind} (h : a.kindAt? id = some k) :
    id.index < a.size := by
  obtain ⟨n, hn, -⟩ := Option.map_eq_some_iff.1 h
  exact index_lt_of_node? hn

theorem size_le_of_kindAt?_eq_none {id : Ident c} (h : a.kindAt? id = none) :
    a.size ≤ id.index := by
  simpa [kindAt?, node?, size] using h

theorem get?_eq_some_iff {k : Kind} {id : IdentOf k} {f : k.Fields} :
    a.get? id = some f ↔ a.node? id = some ⟨k, f⟩ := by
  simp only [get?, Option.bind_eq_some_iff, Node.fieldsAs?_eq_some_iff, exists_eq_right]

@[simp] theorem node?_empty (id : Ident c) : (∅ : Arena).node? id = none := by
  change (#[] : Array Node)[id.index]? = none
  simp

@[simp] theorem contains_empty (id : Ident c) : (∅ : Arena).contains id = false := by
  simp [contains, kindAt?]

theorem mem_ids_iff {id : NodeId} : id ∈ a.ids ↔ a.contains id = true := by
  rw [contains_iff]
  simp only [ids, List.mem_map, Prod.exists, List.mk_mem_zipIdx_iff_getElem?,
    Array.getElem?_toList]
  constructor
  · rintro ⟨n, i, hn, rfl⟩
    exact ⟨n, hn, rfl⟩
  · rintro ⟨n, hn, hkind⟩
    exact ⟨n, id.index, hn, Ident.ext_index hkind rfl⟩

theorem mem_idsOf_iff {id : Ident c} : id ∈ a.idsOf c ↔ a.contains id = true := by
  simp only [idsOf, List.mem_filterMap, mem_ids_iff, Ident.narrow?_eq_some_iff]
  constructor
  · rintro ⟨x, hx, hkind, hindex⟩
    rwa [contains_congr hkind hindex]
  · intro h
    exact ⟨id.toAny, by rwa [contains_toAny], rfl, rfl⟩

theorem pairwise_ids (a : Arena) : a.ids.Pairwise fun x y => x.index < y.index := by
  have hindices : a.ids.map Ident.index = List.range' 0 a.nodes.toList.length := by
    rw [ids, List.map_map]
    exact List.zipIdx_map_snd 0 a.nodes.toList
  rw [← List.pairwise_map, hindices]
  exact List.pairwise_lt_range'

theorem pairwise_idsOf (a : Arena) (c : Class) :
    (a.idsOf c).Pairwise fun x y => x.index < y.index := by
  refine a.pairwise_ids.filterMap _ fun x y hlt x' hx y' hy => ?_
  rwa [(Ident.narrow?_eq_some_iff.1 hx).2, (Ident.narrow?_eq_some_iff.1 hy).2]

section Insert

variable {n : Node} {s : Span}

theorem entries_insert : (a.insert n s).2.entries = a.entries ++ [(n, s)] := by
  simp only [entries, insert, Array.toList_push]
  exact List.zip_append a.aligned.symm

theorem node?_insert (id : Ident c) :
    (a.insert n s).2.node? id = if id.index = a.size then some n else a.node? id := by
  by_cases h : id.index = a.size
  · simp [insert, node?, h, size]
  · have hsize : id.index ≠ a.nodes.size := h
    rw [if_neg h]
    simp only [insert, node?, Array.getElem?_push]
    rw [if_neg hsize]

theorem kindAt?_insert (id : Ident c) :
    (a.insert n s).2.kindAt? id = if id.index = a.size then some n.kind else a.kindAt? id := by
  simp only [kindAt?, node?_insert]
  split <;> rfl

theorem contains_insert {id : Ident c} :
    (a.insert n s).2.contains id = true ↔
      a.contains id = true ∨ id.index = a.size ∧ id.kind = n.kind := by
  rw [contains_iff_kindAt?, kindAt?_insert]
  by_cases h : id.index = a.size
  · have hnot : ¬ a.contains id = true := fun hid => by
      have := index_lt_of_contains hid
      omega
    simp [h, hnot, eq_comm]
  · simp [h, contains_iff_kindAt?]

theorem contains_insert_of_contains {id : Ident c} (h : a.contains id = true) :
    (a.insert n s).2.contains id = true :=
  contains_insert.2 (.inl h)

/-- An insertion adds no node of another kind. -/
theorem get?_insert_of_kind_ne {k : Kind} (hkind : n.kind ≠ k) (id : IdentOf k) :
    (a.insert n s).2.get? id = a.get? id := by
  refine Option.ext fun f => ?_
  rw [get?_eq_some_iff, get?_eq_some_iff, node?_insert]
  split
  · next hindex =>
      refine iff_of_false (fun h => ?_) fun h => ?_
      · obtain rfl : n = ⟨k, f⟩ := Option.some.inj h
        exact hkind rfl
      · exact Nat.ne_of_lt (index_lt_of_node? h) hindex
  · exact Iff.rfl

end Insert

end Arena

end TypedTree
