import Mathlib.Data.List.Nodup
import TypedTree.Proofs.Arena.Identity
import TypedTree.Proofs.Forest

/-!
# Arenas as trees

An arena is `WellBuilt` if every node went in after the nodes that it holds, and
`TreeShaped` if besides no node is held twice and no module is held at all. The children
of a well-built arena lie at lower positions than their parent, so nothing is below
itself; in a tree-shaped one the children form a forest (`TreeShaped.forest`).
-/

namespace TypedTree

open Relation

namespace Arena

/-- Arenas that were built by insertions, where each node holds only identities that
earlier insertions gave. -/
inductive WellBuilt : Arena → Prop
  | empty : WellBuilt ∅
  | insert {a : Arena} {n : Node} {s : Span} (h : a.WellBuilt)
      (hchildren : ∀ c ∈ n.children, a.contains c = true) : (a.insert n s).2.WellBuilt
  | setCoreLibrary {a : Arena} {m : IdentOf .moduleDecl} (h : a.WellBuilt) :
      (a.setCoreLibrary m).WellBuilt

def allChildren (a : Arena) : List NodeId := a.nodes.toList.flatMap Node.children

/-- Well-built arenas in which no node is held twice and no module is held. -/
structure TreeShaped (a : Arena) : Prop where
  wellBuilt : a.WellBuilt
  once : (a.allChildren.map Ident.index).Nodup
  noModule : ∀ c ∈ a.allChildren, c.kind ≠ .moduleDecl

def HasChild (a : Arena) (p c : NodeId) : Prop :=
  ∃ n, a.node? p = some n ∧ n.kind = p.kind ∧ c ∈ n.children

/-- A module leads down to the node. -/
def Reached (a : Arena) (id : NodeId) : Prop :=
  ∃ m ∈ a.modules, ReflTransGen a.HasChild m.toAny id

variable {a : Arena} {p c q : NodeId} {n : Node}

theorem HasChild.contains_parent (h : a.HasChild p c) : a.contains p = true := by
  obtain ⟨n, hn, hkind, _⟩ := h
  exact contains_iff.2 ⟨n, hn, hkind⟩

theorem hasChild_iff_of_node? (hn : a.node? p = some n) (hp : a.contains p = true) :
    a.HasChild p c ↔ c ∈ n.children := by
  obtain ⟨n', hn', hkind⟩ := contains_iff.1 hp
  obtain rfl : n = n' := Option.some.inj (hn.symm.trans hn')
  constructor
  · rintro ⟨n', hn', -, hc⟩
    obtain rfl : n = n' := Option.some.inj (hn.symm.trans hn')
    exact hc
  · exact fun hc => ⟨n, hn, hkind, hc⟩

/-- A node holds identities that the arena knows, at positions before its own. -/
theorem WellBuilt.child_of_node? (h : a.WellBuilt) (hn : a.node? p = some n)
    (hc : c ∈ n.children) : a.contains c = true ∧ c.index < p.index := by
  induction h with
  | empty =>
      rw [node?_empty] at hn
      cases hn
  | @insert a m s h hchildren ih =>
      rw [node?_insert] at hn
      split at hn
      · rename_i hindex
        cases hn
        have hmem := hchildren c hc
        exact ⟨contains_insert_of_contains hmem, hindex ▸ index_lt_of_contains hmem⟩
      · obtain ⟨hmem, hlt⟩ := ih hn
        exact ⟨contains_insert_of_contains hmem, hlt⟩
  | setCoreLibrary h ih => exact ih hn

theorem WellBuilt.contains_child (h : a.WellBuilt) (hc : a.HasChild p c) :
    a.contains c = true := by
  obtain ⟨n, hn, -, hc⟩ := hc
  exact (h.child_of_node? hn hc).1

theorem WellBuilt.index_lt (h : a.WellBuilt) (hc : a.HasChild p c) : c.index < p.index := by
  obtain ⟨n, hn, -, hc⟩ := hc
  exact (h.child_of_node? hn hc).2

theorem WellBuilt.index_lt_of_above (h : a.WellBuilt) (hc : TransGen a.HasChild p c) :
    c.index < p.index := by
  induction hc with
  | single hc => exact h.index_lt hc
  | tail _ hc ih => exact Nat.lt_trans (h.index_lt hc) ih

theorem contains_of_above (h : TransGen a.HasChild p c) : a.contains p = true := by
  obtain ⟨q, hq, -⟩ := TransGen.head'_iff.1 h
  exact hq.contains_parent

theorem WellBuilt.acyclic (h : a.WellBuilt) (p : NodeId) : ¬ TransGen a.HasChild p p :=
  fun hp => Nat.lt_irrefl _ (h.index_lt_of_above hp)

theorem mem_modules_insert {s : Span} {m : IdentOf .moduleDecl} :
    m ∈ (a.insert n s).2.modules ↔
      m ∈ a.modules ∨ n.kind = .moduleDecl ∧ m.index = a.size := by
  have hindex : m = .ofIndex .moduleDecl a.size ↔ m.index = a.size :=
    ⟨fun h => h ▸ rfl, fun h => Ident.ext_index (IdentOf.kind_eq m) h⟩
  by_cases hkind : n.kind = .moduleDecl
  · simp [insert, hkind, hindex]
  · simp [insert, hkind]

theorem WellBuilt.mem_modules_iff (h : a.WellBuilt) {m : IdentOf .moduleDecl} :
    m ∈ a.modules ↔ a.contains m = true := by
  induction h with
  | empty =>
      rw [contains_empty]
      exact ⟨fun hm => absurd hm List.not_mem_nil, fun hm => absurd hm (by simp)⟩
  | insert h hchildren ih =>
      rw [mem_modules_insert, ih, contains_insert, IdentOf.kind_eq, and_comm,
        eq_comm (b := Kind.moduleDecl)]
  | setCoreLibrary h ih => exact ih

theorem WellBuilt.contains_module (h : a.WellBuilt) {m : IdentOf .moduleDecl}
    (hm : m ∈ a.modules) : a.contains m.toAny = true := by
  rw [contains_toAny]
  exact h.mem_modules_iff.1 hm

theorem WellBuilt.nodup_modules (h : a.WellBuilt) : a.modules.Nodup := by
  induction h with
  | empty => exact List.nodup_nil
  | @insert a n s h hchildren ih =>
      by_cases hkind : n.kind = .moduleDecl
      · have hnew : IdentOf.ofIndex .moduleDecl a.size ∉ a.modules := by
          intro hmem
          exact Nat.lt_irrefl _ (index_lt_of_contains (h.mem_modules_iff.1 hmem))
        simpa [Arena.insert, hkind, List.nodup_append] using ⟨ih, fun m hm heq => hnew (heq ▸ hm)⟩
      · simpa [Arena.insert, hkind] using ih
  | setCoreLibrary h ih => exact ih

theorem HasChild.mem_allChildren (h : a.HasChild p c) : c ∈ a.allChildren := by
  obtain ⟨n, hn, -, hc⟩ := h
  exact List.mem_flatMap.2 ⟨n, mem_nodes_of_node? hn, hc⟩

theorem exists_hasChild_of_mem_allChildren (h : c ∈ a.allChildren) : ∃ p, a.HasChild p c := by
  obtain ⟨n, hmem, hc⟩ := List.mem_flatMap.1 h
  obtain ⟨i, hi⟩ := List.mem_iff_getElem?.1 hmem
  rw [Array.getElem?_toList] at hi
  exact ⟨.of n.kind i, n, hi, rfl, hc⟩

theorem TreeShaped.kind_child_ne (h : a.TreeShaped) (hc : a.HasChild p c) :
    c.kind ≠ .moduleDecl :=
  h.noModule c hc.mem_allChildren

theorem TreeShaped.nodup_children (h : a.TreeShaped) (hn : a.node? p = some n) :
    n.children.Nodup := by
  have honce := h.once
  rw [allChildren, List.map_flatMap, List.nodup_flatMap] at honce
  exact (honce.1 n (mem_nodes_of_node? hn)).of_map

theorem TreeShaped.index_eq (h : a.TreeShaped) (hp : a.HasChild p c) (hq : a.HasChild q c) :
    p.index = q.index := by
  have hnot {p q : NodeId} (hp : a.HasChild p c) (hq : a.HasChild q c) :
      ¬ p.index < q.index := by
    intro hlt
    obtain ⟨n, hn, -, hpc⟩ := hp
    obtain ⟨m, hm, -, hqc⟩ := hq
    obtain ⟨hpsize, hn⟩ := Array.getElem?_eq_some_iff.1 hn
    obtain ⟨hqsize, hm⟩ := Array.getElem?_eq_some_iff.1 hm
    -- two nodes that hold the child would list it twice among all children
    have honce := h.once
    rw [allChildren, List.map_flatMap, List.nodup_flatMap] at honce
    have hdisjoint := List.pairwise_iff_getElem.1 honce.2 p.index q.index (by simpa using hpsize)
      (by simpa using hqsize) hlt
    simp only [Function.onFun, Array.getElem_toList, hn, hm] at hdisjoint
    exact hdisjoint (List.mem_map_of_mem hpc) (List.mem_map_of_mem hqc)
  exact Nat.le_antisymm (Nat.not_lt.1 (hnot hq hp)) (Nat.not_lt.1 (hnot hp hq))

theorem TreeShaped.forest (h : a.TreeShaped) : Forest a.HasChild where
  unique hp hq := eq_of_contains hp.contains_parent hq.contains_parent (h.index_eq hp hq)
  acyclic := h.wellBuilt.acyclic

theorem TreeShaped.not_above_module (h : a.TreeShaped) (hc : c.kind = .moduleDecl) :
    ¬ TransGen a.HasChild p c := by
  intro hp
  obtain ⟨q, -, hq⟩ := TransGen.tail'_iff.1 hp
  exact h.kind_child_ne hq hc

end Arena

end TypedTree
