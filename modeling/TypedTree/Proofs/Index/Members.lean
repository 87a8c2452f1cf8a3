import Mathlib.Data.List.Sort
import TypedTree.Proofs.Arena.Identity
import TypedTree.Proofs.Index.Writes

/-!
# Members of sets of identities

Two identities of one kind and one index are the same, so what a set of them contains by
index it holds as a member. Insertions and unions do to the members what their names say, in
whatever order they come, and two sets with the same members are the same set (`ext_mem`).
-/

namespace TypedTree

open Indexed (index)

theorem IdentOf.mem_iff_any_index {k : Kind} {ids : List (IdentOf k)} {id : IdentOf k} :
    id ∈ ids ↔ (ids.any fun x => index x == index id) = true := by
  rw [List.any_eq_true]
  constructor
  · exact fun h => ⟨id, h, beq_self_eq_true _⟩
  · rintro ⟨x, hx, hindex⟩
    have heq : x = id := IdentOf.eq_of_index_eq (beq_iff_eq.1 hindex)
    exact heq ▸ hx

section Order

variable {k : Kind}

instance : Std.Irrefl fun x y : IdentOf k => x.index < y.index := ⟨fun _ => Nat.lt_irrefl _⟩

instance : Std.Antisymm fun x y : IdentOf k => x.index < y.index :=
  ⟨fun _ _ hxy hyx => absurd hyx (Nat.lt_asymm hxy)⟩

/-- A list by rising indices is a part of every other one that has its members. -/
theorem IdentOf.sublist_of_subset {ids ids' : List (IdentOf k)}
    (h : ids.Pairwise fun x y => x.index < y.index)
    (h' : ids'.Pairwise fun x y => x.index < y.index) (hsubset : ids ⊆ ids') :
    ids.Sublist ids' :=
  List.sublist_of_subperm_of_pairwise (List.subperm_of_subset h.nodup hsubset) h h'

end Order

namespace IndexSet

variable {k : Kind} {s t : IndexSet (IdentOf k)} {ids : List (IdentOf k)} {id : IdentOf k}

theorem contains_iff_mem : s.contains id = true ↔ id ∈ s.toList := IdentOf.mem_iff_any_index.symm

theorem not_mem_empty : id ∉ (∅ : IndexSet (IdentOf k)).toList := List.not_mem_nil

theorem mem_foldl_insert : id ∈ (ids.foldl insert s).toList ↔ id ∈ s.toList ∨ id ∈ ids := by
  rw [← contains_iff_mem, contains_foldl_insert, Bool.or_eq_true, contains_iff_mem,
    ← IdentOf.mem_iff_any_index]

theorem mem_foldl_insert_iff : id ∈ (ids.foldl insert ∅).toList ↔ id ∈ ids := by
  rw [mem_foldl_insert]
  exact or_iff_right not_mem_empty

theorem mem_union_iff : id ∈ (s.union t).toList ↔ id ∈ s.toList ∨ id ∈ t.toList :=
  mem_foldl_insert

theorem mem_foldl_union_iff {γ : Type} {f : γ → IndexSet (IdentOf k)} {l : List γ} :
    id ∈ (l.foldl (fun s x => s.union (f x)) s).toList ↔
      id ∈ s.toList ∨ ∃ x ∈ l, id ∈ (f x).toList := by
  induction l generalizing s with
  | nil => simp
  | cons x l ih => rw [List.foldl_cons, ih, mem_union_iff, List.exists_mem_cons_iff, or_assoc]

theorem ext_mem (h : ∀ id, id ∈ s.toList ↔ id ∈ t.toList) : s = t := by
  have hlist : s.toList = t.toList := List.Pairwise.eq_of_mem_iff s.sorted t.sorted h
  cases s
  cases t
  cases hlist
  rfl

end IndexSet

end TypedTree
