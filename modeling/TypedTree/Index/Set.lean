import TypedTree.Index.Table

/-!
# Sets ordered by index

`IndexSet` holds keys in strictly ascending order of their indices, so that a
set has one listing, `toList`. Inserting a key whose index is present changes
nothing: the key that came first stays.
-/

namespace TypedTree

open Indexed (index)

/-- A finite set of keys, at most one per index. -/
structure IndexSet (κ : Type) [Indexed κ] where
  /-- The members in ascending order of their indices. -/
  toList : List κ
  sorted : toList.Pairwise fun a b => index a < index b

namespace IndexSet

variable {κ : Type} [Indexed κ]

def empty : IndexSet κ := ⟨[], .nil⟩

instance : EmptyCollection (IndexSet κ) := ⟨empty⟩

instance : Inhabited (IndexSet κ) := ⟨empty⟩

/-- Whether some member has the index of `k`. -/
def contains (s : IndexSet κ) (k : κ) : Bool := s.toList.any fun a => index a == index k

/-- Puts `k` in its place, unless its index is taken. -/
def place (k : κ) : List κ → List κ
  | [] => [k]
  | a :: as =>
    if index k < index a then k :: a :: as
    else if index k = index a then a :: as
    else a :: place k as

theorem mem_place {k a : κ} {as : List κ} (h : a ∈ place k as) : a = k ∨ a ∈ as := by
  induction as with
  | nil => simpa [place] using h
  | cons b as ih =>
      unfold place at h
      split at h
      · simpa using h
      · split at h
        · exact .inr h
        · rcases List.mem_cons.1 h with rfl | h
          · simp
          · rcases ih h with h | h <;> simp [h]

theorem pairwise_place {k : κ} {as : List κ}
    (h : as.Pairwise fun a b => index a < index b) :
    (place k as).Pairwise fun a b => index a < index b := by
  induction as with
  | nil => simp [place]
  | cons b as ih =>
      obtain ⟨hhead, htail⟩ := List.pairwise_cons.1 h
      unfold place
      split
      · rename_i hlt
        refine List.pairwise_cons.2 ⟨fun c hc => ?_, h⟩
        rcases List.mem_cons.1 hc with rfl | hc
        · exact hlt
        · exact Nat.lt_trans hlt (hhead c hc)
      · split
        · exact h
        · refine List.pairwise_cons.2 ⟨fun c hc => ?_, ih htail⟩
          rcases mem_place hc with rfl | hc
          · omega
          · exact hhead c hc

/-- Adds `k`, unless a member has its index already. -/
def insert (s : IndexSet κ) (k : κ) : IndexSet κ :=
  ⟨place k s.toList, pairwise_place s.sorted⟩

/-- The set of the keys of a list. Of several with one index the first stays. -/
def ofList (ks : List κ) : IndexSet κ := ks.foldl insert ∅

def union (s t : IndexSet κ) : IndexSet κ := t.toList.foldl insert s

@[simp] theorem contains_empty (k : κ) : (∅ : IndexSet κ).contains k = false := rfl

theorem any_place (k j : κ) (as : List κ) :
    ((place k as).any fun a => index a == index j) =
      (index k == index j || as.any fun a => index a == index j) := by
  induction as with
  | nil => simp [place]
  | cons b as ih =>
      unfold place
      split
      · simp
      · split
        · simp_all
        · simp_all
          grind

theorem contains_insert (s : IndexSet κ) (k j : κ) :
    (s.insert k).contains j = (index k == index j || s.contains j) :=
  any_place k j s.toList

end IndexSet

end TypedTree
