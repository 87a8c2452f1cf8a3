import Mathlib.Data.List.Perm.Subperm
import Mathlib.Data.Nat.Find
import Mathlib.Logic.Relation
import TypedTree.Proofs.Index.Writes
import TypedTree.Ty.Relation

/-!
# What a type stands for

`AliasOf r t u` is one recorded alias, and `StandsFor r t u` says that the aliases lead from
`t` to `u` and no further. `RelationTable.canonical` takes a bounded number of steps, and the
bound is large enough: the types on the way to the end are pairwise distinct aliases, so there
are no more of them than the table holds (`StandsFor.canonical_eq`). A type from which no cycle
can be reached stands for some type (`exists_standsFor`).
-/

namespace TypedTree

open Relation

namespace RelationTable

variable {r : RelationTable} {t u v : TypeId} {n : Nat}

def AliasOf (r : RelationTable) (t u : TypeId) : Prop := r.aliases.get? t = some u

instance : Decidable (r.AliasOf t u) := inferInstanceAs (Decidable (r.aliases.get? t = some u))

theorem aliasOf_iff_mem_sortedEntries : r.AliasOf t u ↔ (t, u) ∈ r.aliases.sortedEntries := by
  rw [AliasOf, Table.get?_eq_some_iff, ← r.aliases.perm_sortedEntries.mem_iff]
  constructor
  · rintro ⟨⟨_⟩, rfl, hmem⟩
    exact hmem
  · exact fun hmem => ⟨t, rfl, hmem⟩

/-- The aliases lead from `t` to `u`, which is no alias. -/
def StandsFor (r : RelationTable) (t u : TypeId) : Prop :=
  ReflTransGen r.AliasOf t u ∧ r.aliases.get? u = none

theorem StandsFor.refl (h : r.aliases.get? t = none) : r.StandsFor t t := ⟨.refl, h⟩

theorem follow_add (r : RelationTable) (i j : Nat) (t : TypeId) :
    r.follow (i + j) t = r.follow j (r.follow i t) := by
  induction i generalizing t with
  | zero => rw [Nat.zero_add]; rfl
  | succ i ih =>
      cases h : r.aliases.get? t with
      | none => rw [follow_of_none h, follow_of_none h, follow_of_none h]
      | some u => rw [Nat.succ_add, follow_of_some h, follow_of_some h, ih]

theorem follow_one (h : r.AliasOf t u) : r.follow 1 t = u := follow_of_some h 0

theorem reflTransGen_follow (r : RelationTable) (n : Nat) (t : TypeId) :
    ReflTransGen r.AliasOf t (r.follow n t) := by
  induction n generalizing t with
  | zero => exact .refl
  | succ n ih =>
      cases h : r.aliases.get? t with
      | none => rw [follow_of_none h]
      | some u =>
          rw [follow_of_some h]
          exact .head h (ih u)

theorem transGen_follow (h : r.AliasOf t u) (n : Nat) :
    TransGen r.AliasOf t (r.follow (n + 1) t) := by
  rw [follow_of_some h]
  exact .head' h (r.reflTransGen_follow n u)

theorem exists_follow_eq (h : ReflTransGen r.AliasOf t u) : ∃ n, r.follow n t = u := by
  induction h with
  | refl => exact ⟨0, rfl⟩
  | tail _ hstep ih =>
      rcases ih with ⟨n, rfl⟩
      exact ⟨n + 1, by rw [follow_add, follow_one hstep]⟩

theorem le_size (halias : ∀ i < n, ∃ u, r.AliasOf (r.follow i t) u)
    (hdistinct : ∀ i j, i < j → j < n → r.follow i t ≠ r.follow j t) : n ≤ r.aliases.size := by
  have hnodup : ((List.range n).map fun i => (r.follow i t).raw).Nodup := by
    refine List.pairwise_map.2 (List.pairwise_lt_range.imp_of_mem fun _ hj hij heq => ?_)
    exact hdistinct _ _ hij (List.mem_range.1 hj) (congrArg TypeId.mk heq)
  have hsubset : ((List.range n).map fun i => (r.follow i t).raw) ⊆
      r.aliases.sortedEntries.map fun e => e.1.raw := by
    intro k hk
    rcases List.mem_map.1 hk with ⟨i, hi, rfl⟩
    rcases halias i (List.mem_range.1 hi) with ⟨u, hu⟩
    exact List.mem_map_of_mem (aliasOf_iff_mem_sortedEntries.1 hu)
  have hlength := (List.subperm_of_subset hnodup hsubset).length_le
  rwa [List.length_map, List.length_range, List.length_map,
    ← r.aliases.perm_sortedEntries.length_eq, Table.length_entries] at hlength

/-- The end of the aliases is met after no more steps than there are aliases. -/
theorem StandsFor.exists_le_size (h : r.StandsFor t u) :
    ∃ n ≤ r.aliases.size, r.follow n t = u := by
  classical
  rcases h with ⟨hreach, hend⟩
  obtain ⟨n, hfirst, hbefore⟩ : ∃ n, r.follow n t = u ∧ ∀ i < n, r.follow i t ≠ u := by
    have hex := exists_follow_eq hreach
    exact ⟨Nat.find hex, Nat.find_spec hex, fun i hi => Nat.find_min hex hi⟩
  refine ⟨n, le_size (t := t) (fun i hi => ?_) fun i j hij hj heq => ?_, hfirst⟩
  · cases hget : r.aliases.get? (r.follow i t) with
    | some v => exact ⟨v, hget⟩
    | none =>
        -- nothing follows a type that is no alias, so the end would be met before
        refine absurd ?_ (hbefore i hi)
        rw [← hfirst, ← Nat.add_sub_cancel' (Nat.le_of_lt hi), follow_add, follow_of_none hget]
  · -- what follows a type that is met twice would follow its first place already
    refine hbefore (i + (n - j)) (by omega) ?_
    rw [follow_add, heq, ← follow_add, Nat.add_sub_cancel' (Nat.le_of_lt hj), hfirst]

theorem StandsFor.follow_eq (h : r.StandsFor t u) (hn : r.follow n t = u) {m : Nat}
    (hm : n ≤ m) : r.follow m t = u := by
  rw [← Nat.add_sub_cancel' hm, follow_add, hn, follow_of_none h.2]

/-- The bounded search for the end of the aliases finds the end. -/
theorem StandsFor.canonical_eq (h : r.StandsFor t u) : r.canonical t = u := by
  rcases h.exists_le_size with ⟨n, hle, hn⟩
  exact h.follow_eq hn (Nat.le_succ_of_le hle)

theorem StandsFor.unique (h : r.StandsFor t u) (h' : r.StandsFor t v) : u = v :=
  h.canonical_eq.symm.trans h'.canonical_eq

/-- If the aliases do not end within as many steps as there are, a type comes twice. -/
theorem exists_follow_eq_follow (halias : ∀ i ≤ r.aliases.size, ∃ u, r.AliasOf (r.follow i t) u) :
    ∃ i j, i < j ∧ j ≤ r.aliases.size ∧ r.follow i t = r.follow j t := by
  by_contra! hdistinct
  refine absurd (le_size (n := r.aliases.size + 1) (t := t)
    (fun i hi => halias i (Nat.le_of_lt_succ hi)) fun i j hij hj => ?_) (Nat.not_succ_le_self _)
  exact hdistinct i j hij (Nat.le_of_lt_succ hj)

/-- The aliases from a type on come to an end, unless they lead into a cycle. -/
theorem exists_standsFor (h : ∀ u, ReflTransGen r.AliasOf t u → ¬ TransGen r.AliasOf u u) :
    ∃ u, r.StandsFor t u := by
  by_contra! hend
  have halias (i : Nat) : ∃ u, r.AliasOf (r.follow i t) u := by
    refine Option.ne_none_iff_exists'.1 fun hnone => ?_
    exact hend _ ⟨r.reflTransGen_follow i t, hnone⟩
  rcases exists_follow_eq_follow fun i _ => halias i with ⟨i, j, hij, -, heq⟩
  -- the steps between two places of one type are a cycle
  rcases Nat.exists_eq_add_of_lt hij with ⟨k, rfl⟩
  rcases halias i with ⟨u, hu⟩
  have hcycle := transGen_follow hu k
  rw [← follow_add, ← Nat.add_assoc, ← heq] at hcycle
  exact h _ (r.reflTransGen_follow i t) hcycle

end RelationTable

end TypedTree
