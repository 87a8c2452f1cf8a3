import TypedTree.Proofs.Arena.Identity
import TypedTree.Proofs.Index.Writes

/-!
# Tables that agree

Two tables agree if they hold the same entries, wherever these lie when they are listed
(`Table.Agrees`). A step that writes under the index of a pair, and reads nothing but the
entry there, leaves under an index what the pairs of that index make of it
(`cells_foldl`). So two lists of pairs that have the same pairs at each index, in the same
order, lead to tables that agree (`agrees_foldl`). The order of pairs of different indices
is of no account (`pairsAt_swap`).
-/

namespace TypedTree

open Indexed (index)

variable {κ β γ : Type} [Indexed κ]

/-- Two pairs of different indices that follow each other can change places. -/
theorem pairsAt_swap {x y : Option (κ × β)}
    (h : ∀ e ∈ x, ∀ e' ∈ y, index e.1 ≠ index e'.1) (l l' : List (κ × β)) (k : κ) :
    pairsAt (l ++ (x.toList ++ (y.toList ++ l'))) k =
      pairsAt (l ++ (y.toList ++ (x.toList ++ l'))) k := by
  suffices hswap : pairsAt (x.toList ++ y.toList) k = pairsAt (y.toList ++ x.toList) k by
    simp only [pairsAt_append, ← List.append_assoc] at hswap ⊢
    rw [List.append_assoc (pairsAt l k), hswap, ← List.append_assoc]
  cases x with
  | none => simp
  | some e =>
      cases y with
      | none => simp
      | some e' =>
          have hne : index e.1 ≠ index e'.1 := h e rfl e' rfl
          -- the index of `k` is that of one of the two pairs at most
          change pairsAt [e, e'] k = pairsAt [e', e] k
          by_cases he : index e.1 = index k
          · have he' : index e'.1 ≠ index k := fun heq => hne (he.trans heq.symm)
            simp [pairsAt, he, he']
          · rw [pairsAt_cons_of_index_ne he]
            by_cases he' : index e'.1 = index k
            · simp [pairsAt, he, he']
            · simp [pairsAt, he, he']

namespace Table

/-- The two tables hold the same entries, under the same keys. -/
def Agrees (t t' : Table κ β) : Prop := ∀ k : κ, t.cells[index k]? = t'.cells[index k]?

variable {t t' : Table κ β}

theorem Agrees.rfl : t.Agrees t := fun _ => .refl _

theorem Agrees.get?_eq (h : t.Agrees t') (k : κ) : t.get? k = t'.get? k := by
  rw [get?, get?, h k]

theorem Agrees.contains_eq (h : t.Agrees t') (k : κ) : t.contains k = t'.contains k := by
  rw [contains, contains, h.get?_eq]

theorem Agrees.mem_entries_iff (h : t.Agrees t') {e : κ × β} :
    e ∈ t.entries ↔ e ∈ t'.entries := by
  rw [mem_entries, mem_entries, h e.1]

/-- Keys of one kind and one index are the same, so that tables with such keys agree if they give
the same answers. -/
theorem agrees_of_get?_eq {k : Kind} {t t' : Table (IdentOf k) β}
    (h : ∀ id, t.get? id = t'.get? id) : t.Agrees t' := by
  intro id
  have hget := h id
  rw [get?, get?] at hget
  cases hcell : t.cells[index id]? with
  | none =>
      rw [hcell] at hget
      exact (Option.map_eq_none_iff.1 hget.symm).symm
  | some e =>
      rw [hcell] at hget
      obtain ⟨e', hcell', hvalue⟩ := Option.map_eq_some_iff.1 hget.symm
      have hkey : e'.1 = e.1 :=
        IdentOf.eq_of_index_eq ((t'.keyed hcell').trans (t.keyed hcell).symm)
      rw [hcell', Prod.ext hkey hvalue]

section Fold

variable (f : Option β → γ → β) {step : Table κ β → κ × γ → Table κ β}

/-- The entry that `f` makes of an entry and a pair of its index. -/
def made (cell : Option (κ × β)) (e : κ × γ) : Option (κ × β) :=
  some ((cell.map Prod.fst).getD e.1, f (cell.map Prod.snd) e.2)

/-- An entry is what the pairs of its index make of it, one after another. -/
theorem cells_foldl (hstep : ∀ t e, ∃ slots, step t e = t.write e.1 (f (t.get? e.1) e.2) slots)
    (t : Table κ β) (pairs : List (κ × γ)) (k : κ) :
    (pairs.foldl step t).cells[index k]? =
      (pairsAt pairs k).foldl (made f) t.cells[index k]? := by
  induction pairs generalizing t with
  | nil => rfl
  | cons e pairs ih =>
      obtain ⟨slots, he⟩ := hstep t e
      rw [List.foldl_cons, ih, he, cells_write]
      by_cases h : index e.1 = index k
      · rw [if_pos h, pairsAt_cons_of_index_eq h, List.foldl_cons, keyAt, get?, h]
        rfl
      · rw [if_neg h, pairsAt_cons_of_index_ne h]

theorem agrees_foldl (hstep : ∀ t e, ∃ slots, step t e = t.write e.1 (f (t.get? e.1) e.2) slots)
    (t : Table κ β) {pairs pairs' : List (κ × γ)}
    (h : ∀ k, pairsAt pairs k = pairsAt pairs' k) :
    (pairs.foldl step t).Agrees (pairs'.foldl step t) := by
  intro k
  rw [cells_foldl f hstep, cells_foldl f hstep, h]

end Fold

theorem agrees_writeAll (t : Table κ β) {pairs pairs' : List (κ × β)}
    (h : ∀ k, pairsAt pairs k = pairsAt pairs' k) :
    (t.writeAll pairs).Agrees (t.writeAll pairs') := by
  have hstep : ∀ (t : Table κ β) (e : κ × β), ∃ slots,
      t.insert e.1 e.2 = t.write e.1 e.2 slots := fun _ _ => ⟨_, Eq.refl _⟩
  exact agrees_foldl (fun _ v => v) hstep t h

theorem agrees_gatherAll {μ : Type} [Indexed μ] (t : Table κ (IndexSet μ))
    {pairs pairs' : List (κ × μ)} (h : ∀ k, pairsAt pairs k = pairsAt pairs' k) :
    (t.gatherAll pairs).Agrees (t.gatherAll pairs') := by
  have hstep : ∀ (t : Table κ (IndexSet μ)) (e : κ × μ), ∃ slots,
      (t.update e.1 fun s => (s.getD ∅).insert e.2) =
        t.write e.1 (((t.get? e.1).getD ∅).insert e.2) slots := fun _ _ => ⟨_, Eq.refl _⟩
  exact agrees_foldl (fun s m => (s.getD ∅).insert m) hstep t h

end Table

end TypedTree
