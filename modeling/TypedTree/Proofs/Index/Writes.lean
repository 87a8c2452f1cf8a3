import TypedTree.Index.Set

/-!
# Tables after many writes

`writeAll` records pairs one after another, `pushAll` puts the values of pairs at the ends
of the lists under their keys, and `gatherAll` adds them to the sets there. What is read
afterwards depends on the pairs of one index only (`pairsAt`): it is the value of the last of
them (`lastAt`), all their values in order, or the set of these values.
-/

namespace TypedTree

open Indexed (index)

variable {κ β γ : Type} [Indexed κ]

/-- The pairs whose keys mean the entry of `k`. -/
def pairsAt (pairs : List (κ × β)) (k : κ) : List (κ × β) :=
  pairs.filter fun e => index e.1 == index k

/-- The value of the last pair whose key means the entry of `k`. -/
def lastAt (pairs : List (κ × β)) (k : κ) : Option β := (pairsAt pairs k).getLast?.map Prod.snd

theorem mem_pairsAt {pairs : List (κ × β)} {k : κ} {e : κ × β} :
    e ∈ pairsAt pairs k ↔ e ∈ pairs ∧ index e.1 = index k := by
  simp [pairsAt]

theorem pairsAt_cons_of_index_eq {e : κ × β} {k : κ} (h : index e.1 = index k)
    (pairs : List (κ × β)) : pairsAt (e :: pairs) k = e :: pairsAt pairs k := by
  simp [pairsAt, h]

theorem pairsAt_cons_of_index_ne {e : κ × β} {k : κ} (h : index e.1 ≠ index k)
    (pairs : List (κ × β)) : pairsAt (e :: pairs) k = pairsAt pairs k := by
  simp [pairsAt, h]

theorem pairsAt_append (l l' : List (κ × β)) (k : κ) :
    pairsAt (l ++ l') k = pairsAt l k ++ pairsAt l' k :=
  List.filter_append _ _

theorem lastAt_append_cons {e : κ × β} {k : κ} (h : index e.1 = index k)
    (l l' : List (κ × β)) : lastAt (l ++ e :: l') k = some ((lastAt l' k).getD e.2) := by
  rw [lastAt, pairsAt_append, pairsAt_cons_of_index_eq h, List.getLast?_append,
    List.getLast?_cons, Option.some_or, lastAt]
  cases (pairsAt l' k).getLast? <;> rfl

theorem filterMap_cons_eq_append {α : Type} (f : γ → Option α) (x : γ) (l : List γ) :
    (x :: l).filterMap f = (f x).toList ++ l.filterMap f := by
  cases h : f x with
  | none => rw [List.filterMap_cons_none h]; rfl
  | some y => rw [List.filterMap_cons_some h]; rfl

namespace Table

theorem get?_of_mem_entries {t : Table κ β} {e : κ × β} (he : e ∈ t.entries) :
    t.get? e.1 = some e.2 :=
  (t.get?_eq_some_iff e.1 e.2).2 ⟨e.1, rfl, he⟩

theorem contains_eq_false_iff {t : Table κ β} {k : κ} :
    t.contains k = false ↔ t.get? k = none := by
  simp [contains]

theorem of_get?_eq_some {t : Table κ β} (P : β → Prop) (h : ∀ e ∈ t.entries, P e.2) {k : κ}
    {v : β} (hv : t.get? k = some v) : P v := by
  obtain ⟨_, -, hmem⟩ := (t.get?_eq_some_iff k v).1 hv
  exact h _ hmem

theorem cells_write (t : Table κ β) (k : κ) (v : β) (slots : Slots) (i : Nat) :
    (t.write k v slots).cells[i]? = if index k = i then some (t.keyAt k, v) else t.cells[i]? := by
  simp only [write, Std.TreeMap.getElem?_insert, index_keyAt, Nat.compare_eq_eq]

theorem forall_mem_entries_write {P : κ → Prop} {Q : β → Prop} {t : Table κ β} {k : κ} {v : β}
    (ht : ∀ e ∈ t.entries, P e.1 ∧ Q e.2) (hk : P k) (hv : Q v) (slots : Slots) :
    ∀ e ∈ (t.write k v slots).entries, P e.1 ∧ Q e.2 := by
  intro e he
  rw [mem_entries, cells_write] at he
  split at he
  · cases he
    refine ⟨?_, hv⟩
    unfold keyAt
    cases hcell : t.cells[index k]? with
    | none => exact hk
    | some f => exact (ht f (mem_entries.2 (by rwa [t.keyed hcell]))).1
  · exact ht e (mem_entries.2 he)

/-- Records pairs, one after another. -/
def writeAll (t : Table κ β) (pairs : List (κ × β)) : Table κ β :=
  pairs.foldl (fun t e => t.insert e.1 e.2) t

/-- Puts the values of pairs, one after another, at the ends of the lists under their
keys. -/
def pushAll (t : Table κ (List β)) (pairs : List (κ × β)) : Table κ (List β) :=
  pairs.foldl (fun t e => t.update e.1 fun l => l.getD [] ++ [e.2]) t

theorem writeAll_filterMap_cons (t : Table κ β) (f : γ → Option (κ × β)) (x : γ) (l : List γ) :
    t.writeAll ((x :: l).filterMap f) =
      (t.writeAll (f x).toList).writeAll (l.filterMap f) := by
  rw [filterMap_cons_eq_append, writeAll, List.foldl_append]
  rfl

theorem pushAll_filterMap_cons (t : Table κ (List β)) (f : γ → Option (κ × β)) (x : γ)
    (l : List γ) :
    t.pushAll ((x :: l).filterMap f) = (t.pushAll (f x).toList).pushAll (l.filterMap f) := by
  rw [filterMap_cons_eq_append, pushAll, List.foldl_append]
  rfl

@[simp] theorem entries_empty : (∅ : Table κ β).entries = [] := by
  refine List.eq_nil_iff_forall_not_mem.2 fun e he => ?_
  have hget := get?_of_mem_entries he
  rw [get?_empty] at hget
  cases hget

theorem forall_mem_entries_writeAll {P : κ → Prop} {Q : β → Prop} {pairs : List (κ × β)}
    (hpairs : ∀ e ∈ pairs, P e.1 ∧ Q e.2) :
    ∀ e ∈ ((∅ : Table κ β).writeAll pairs).entries, P e.1 ∧ Q e.2 := by
  suffices hall : ∀ t : Table κ β, (∀ e ∈ t.entries, P e.1 ∧ Q e.2) →
      ∀ e ∈ (t.writeAll pairs).entries, P e.1 ∧ Q e.2 from hall ∅ (by simp)
  induction pairs with
  | nil => exact fun _ ht => ht
  | cons e pairs ih =>
      obtain ⟨⟨hk, hv⟩, hpairs⟩ := List.forall_mem_cons.1 hpairs
      exact fun t ht => ih hpairs _ (forall_mem_entries_write ht hk hv _)

theorem forall_mem_entries_pushAll {P : κ → Prop} {Q : β → Prop} {pairs : List (κ × β)}
    (hpairs : ∀ e ∈ pairs, P e.1 ∧ Q e.2) :
    ∀ e ∈ ((∅ : Table κ (List β)).pushAll pairs).entries, P e.1 ∧ ∀ v ∈ e.2, Q v := by
  suffices hall : ∀ t : Table κ (List β), (∀ e ∈ t.entries, P e.1 ∧ ∀ v ∈ e.2, Q v) →
      ∀ e ∈ (t.pushAll pairs).entries, P e.1 ∧ ∀ v ∈ e.2, Q v from hall ∅ (by simp)
  induction pairs with
  | nil => exact fun _ ht => ht
  | cons e pairs ih =>
      obtain ⟨⟨hk, hv⟩, hpairs⟩ := List.forall_mem_cons.1 hpairs
      intro t ht
      -- the list under the key grows by one value, and the others were there
      have hlist : ∀ v ∈ (t.get? e.1).getD [] ++ [e.2], Q v := by
        refine List.forall_mem_append.2 ⟨?_, by simpa using hv⟩
        cases hl : t.get? e.1 with
        | none => simp
        | some l => exact of_get?_eq_some (fun l => ∀ v ∈ l, Q v) (fun e he => (ht e he).2) hl
      exact ih hpairs _ (forall_mem_entries_write (Q := fun l => ∀ v ∈ l, Q v) ht hk hlist _)

theorem get?_writeAll (t : Table κ β) (pairs : List (κ × β)) (k : κ) :
    (t.writeAll pairs).get? k =
      ((pairsAt pairs k).getLast?.map Prod.snd).or (t.get? k) := by
  induction pairs generalizing t with
  | nil => rfl
  | cons e pairs ih =>
      change ((t.insert e.1 e.2).writeAll pairs).get? k = _
      rw [ih, get?_insert]
      by_cases h : index e.1 = index k
      · rw [if_pos h, pairsAt_cons_of_index_eq h, List.getLast?_cons]
        cases (pairsAt pairs k).getLast? <;> rfl
      · rw [if_neg h, pairsAt_cons_of_index_ne h]

theorem get?_writeAll_empty (pairs : List (κ × β)) (k : κ) :
    ((∅ : Table κ β).writeAll pairs).get? k = lastAt pairs k := by
  rw [get?_writeAll, get?_empty, Option.or_none]
  rfl

theorem mem_of_get?_writeAll {pairs : List (κ × β)} {k : κ} {v : β}
    (h : ((∅ : Table κ β).writeAll pairs).get? k = some v) :
    ∃ j, (j, v) ∈ pairs ∧ index j = index k := by
  rw [get?_writeAll, get?_empty, Option.or_none, Option.map_eq_some_iff] at h
  obtain ⟨⟨j, v⟩, he, rfl⟩ := h
  exact ⟨j, mem_pairsAt.1 (List.mem_of_getLast? he)⟩

theorem isSome_get?_writeAll (t : Table κ β) {pairs : List (κ × β)} {e : κ × β} {k : κ}
    (he : e ∈ pairs) (hk : index e.1 = index k) : ((t.writeAll pairs).get? k).isSome := by
  have hmem : e ∈ pairsAt pairs k := mem_pairsAt.2 ⟨he, hk⟩
  have hlast := List.getLast?_eq_some_getLast (List.ne_nil_of_mem hmem)
  rw [get?_writeAll, hlast]
  rfl

theorem getD_get?_pushAll (t : Table κ (List β)) (pairs : List (κ × β)) (k : κ) :
    ((t.pushAll pairs).get? k).getD [] =
      (t.get? k).getD [] ++ (pairsAt pairs k).map Prod.snd := by
  induction pairs generalizing t with
  | nil => simp [pushAll, pairsAt]
  | cons e pairs ih =>
      change (((t.update e.1 fun l => l.getD [] ++ [e.2]).pushAll pairs).get? k).getD [] = _
      rw [ih, get?_update]
      by_cases h : index e.1 = index k
      · rw [if_pos h, pairsAt_cons_of_index_eq h, t.get?_congr h]
        simp
      · rw [if_neg h, pairsAt_cons_of_index_ne h]

/-- Adds the values of pairs, one after another, to the sets under their keys. -/
def gatherAll {μ : Type} [Indexed μ] (t : Table κ (IndexSet μ)) (pairs : List (κ × μ)) :
    Table κ (IndexSet μ) :=
  pairs.foldl (fun t e => t.update e.1 fun s => (s.getD ∅).insert e.2) t

theorem getD_get?_gatherAll {μ : Type} [Indexed μ] (t : Table κ (IndexSet μ))
    (pairs : List (κ × μ)) (k : κ) :
    ((t.gatherAll pairs).get? k).getD ∅ =
      ((pairsAt pairs k).map Prod.snd).foldl IndexSet.insert ((t.get? k).getD ∅) := by
  induction pairs generalizing t with
  | nil => rfl
  | cons e pairs ih =>
      change (((t.update e.1 fun s => (s.getD ∅).insert e.2).gatherAll pairs).get? k).getD ∅ = _
      rw [ih, get?_update]
      by_cases h : index e.1 = index k
      · rw [if_pos h, pairsAt_cons_of_index_eq h, t.get?_congr h]
        rfl
      · rw [if_neg h, pairsAt_cons_of_index_ne h]

theorem isSome_get?_gatherAll {μ : Type} [Indexed μ] {t : Table κ (IndexSet μ)}
    {pairs : List (κ × μ)} {k : κ} :
    ((t.gatherAll pairs).get? k).isSome ↔
      (t.get? k).isSome ∨ ∃ e ∈ pairs, index e.1 = index k := by
  induction pairs generalizing t with
  | nil => simp [gatherAll]
  | cons e pairs ih =>
      change (((t.update e.1 fun s => (s.getD ∅).insert e.2).gatherAll pairs).get? k).isSome ↔ _
      rw [ih, get?_update]
      by_cases h : index e.1 = index k
      · simp [h]
      · simp [h]

theorem mem_of_mem_pushAll (t : Table κ (List β)) {pairs : List (κ × β)} {e : κ × β}
    (he : e ∈ pairs) : ∃ l, (t.pushAll pairs).get? e.1 = some l ∧ e.2 ∈ l := by
  have hmem : e.2 ∈ ((t.pushAll pairs).get? e.1).getD [] := by
    rw [getD_get?_pushAll]
    exact List.mem_append_right _ (List.mem_map_of_mem (mem_pairsAt.2 ⟨he, rfl⟩))
  cases hl : (t.pushAll pairs).get? e.1 with
  | none => simp [hl] at hmem
  | some l => exact ⟨l, rfl, by simpa [hl] using hmem⟩

theorem ne_nil_of_get?_pushAll {t : Table κ (List β)}
    (ht : ∀ k l, t.get? k = some l → l ≠ []) {pairs : List (κ × β)} {k : κ} {l : List β}
    (h : (t.pushAll pairs).get? k = some l) : l ≠ [] := by
  induction pairs generalizing t with
  | nil => exact ht k l h
  | cons e pairs ih =>
      refine ih (t := t.update e.1 fun l => l.getD [] ++ [e.2]) ?_ h
      intro k l hl
      rw [get?_update] at hl
      split at hl
      · cases hl
        simp
      · exact ht k l hl

end Table

namespace IndexSet

theorem contains_foldl_insert (s : IndexSet κ) (ks : List κ) (k : κ) :
    (ks.foldl insert s).contains k = (s.contains k || ks.any fun a => index a == index k) := by
  induction ks generalizing s with
  | nil => simp
  | cons a ks ih =>
      rw [List.foldl_cons, ih, contains_insert, List.any_cons, Bool.or_left_comm, Bool.or_assoc]

end IndexSet

end TypedTree
