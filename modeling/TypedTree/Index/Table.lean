import Std.Data.TreeMap.Lemmas
import TypedTree.Index.Slots

/-!
# Tables read by index

An identity carries more than its position, but only the position decides which
entry of a table it means. `Table` keeps an entry under the index of its key: `get?`
reads it, `insert` and `erase` write it, and `get?_insert`, `get?_erase` say what
a write does to every later read.

`entries` lists a table by the slots of its entries and `sortedEntries` by their
indices. The two hold the same entries (`perm_sortedEntries`), which are those that
`get?` reads (`get?_eq_some_iff`), and no two of one index (`distinct_entries`).
-/

namespace TypedTree

/-- Keys that stand for a position. Two keys with the same index are the same
key, whatever else they carry. -/
class Indexed (κ : Type) where
  /-- The position that the key stands for. -/
  index : κ → Nat

open Indexed (index)

/-- Keys with values, at most one per index. -/
structure Table (κ β : Type) [Indexed κ] where
  /-- The key and the value under each index. -/
  cells : Std.TreeMap Nat (κ × β) := ∅
  /-- Where the entries lie when they are listed. -/
  slots : Slots := ∅
  /-- Each entry is under the index of its key. -/
  keyed : ∀ {i : Nat} {e : κ × β}, cells[i]? = some e → index e.1 = i := by simp

namespace Table

variable {κ β : Type} [Indexed κ]

def empty : Table κ β := {}

instance : EmptyCollection (Table κ β) := ⟨empty⟩

instance : Inhabited (Table κ β) := ⟨empty⟩

def get? (t : Table κ β) (k : κ) : Option β := t.cells[index k]?.map Prod.snd

def contains (t : Table κ β) (k : κ) : Bool := (t.get? k).isSome

def size (t : Table κ β) : Nat := t.cells.size

def sortedEntries (t : Table κ β) : List (κ × β) := t.cells.toList.map Prod.snd

/-- The place of an entry in a listing: its slot. -/
def place (t : Table κ β) (e : κ × β) : Nat := (t.slots.slot? (index e.1)).getD 0

/-- The entries in ascending order of their slots. -/
def entries (t : Table κ β) : List (κ × β) :=
  ((t.sortedEntries.map fun e => (t.place e, e)).mergeSort fun a b => a.1 ≤ b.1).map Prod.snd

/-- The keys, as they were when their entries were made, in the order of `entries`. -/
def keys (t : Table κ β) : List κ := t.entries.map Prod.fst

/-- The key of the entry under the index of `k`, or `k` itself without one. -/
def keyAt (t : Table κ β) (k : κ) : κ := (t.cells[index k]?.map Prod.fst).getD k

theorem index_keyAt (t : Table κ β) (k : κ) : index (t.keyAt k) = index k := by
  unfold keyAt
  cases h : t.cells[index k]? with
  | none => rfl
  | some e => exact t.keyed h

theorem keyed_insert {cells : Std.TreeMap Nat (κ × β)} {e : κ × β}
    (h : ∀ {i : Nat} {e : κ × β}, cells[i]? = some e → index e.1 = i) {i : Nat} {f : κ × β}
    (hf : (cells.insert (index e.1) e)[i]? = some f) : index f.1 = i := by
  rw [Std.TreeMap.getElem?_insert] at hf
  split at hf
  · rename_i hi
    cases hf
    exact Nat.compare_eq_eq.1 hi
  · exact h hf

theorem keyed_erase {cells : Std.TreeMap Nat (κ × β)} {j : Nat}
    (h : ∀ {i : Nat} {e : κ × β}, cells[i]? = some e → index e.1 = i) {i : Nat} {f : κ × β}
    (hf : (cells.erase j)[i]? = some f) : index f.1 = i := by
  rw [Std.TreeMap.getElem?_erase] at hf
  split at hf
  · cases hf
  · exact h hf

/-- Records `v` under the index of `k`, for a listing by `slots`. A key that is already
there stays. -/
def write (t : Table κ β) (k : κ) (v : β) (slots : Slots) : Table κ β where
  cells := t.cells.insert (index (t.keyAt k)) (t.keyAt k, v)
  slots := slots
  keyed := keyed_insert (e := (t.keyAt k, v)) t.keyed

/-- Records `v` under the index of `k`. A key that is already there stays, yet room is
made for another one. -/
def insert (t : Table κ β) (k : κ) (v : β) : Table κ β :=
  let slots := t.slots.makeRoom
  t.write k v (if t.contains k then slots else slots.put (index k))

/-- Records under the index of `k` what `f` makes of the value there. Room is made for
a new entry only. -/
def update (t : Table κ β) (k : κ) (f : Option β → β) : Table κ β :=
  t.write k (f (t.get? k))
    (if t.contains k then t.slots else t.slots.makeRoom.put (index k))

def erase (t : Table κ β) (k : κ) : Table κ β where
  cells := t.cells.erase (index k)
  slots := t.slots.erase (index k)
  keyed := keyed_erase t.keyed

theorem get?_congr (t : Table κ β) {k j : κ} (h : index k = index j) : t.get? k = t.get? j := by
  rw [get?, get?, h]

@[simp] theorem get?_empty (k : κ) : (∅ : Table κ β).get? k = none := by
  change Option.map Prod.snd (∅ : Std.TreeMap Nat (κ × β))[index k]? = none
  simp

theorem get?_write (t : Table κ β) (k j : κ) (v : β) (slots : Slots) :
    (t.write k v slots).get? j = if index k = index j then some v else t.get? j := by
  simp only [write, get?, Std.TreeMap.getElem?_insert, index_keyAt, Nat.compare_eq_eq]
  split <;> simp

theorem get?_insert (t : Table κ β) (k j : κ) (v : β) :
    (t.insert k v).get? j = if index k = index j then some v else t.get? j :=
  get?_write t k j v _

@[simp] theorem get?_insert_self (t : Table κ β) (k : κ) (v : β) :
    (t.insert k v).get? k = some v := by
  simp [get?_insert]

theorem get?_update (t : Table κ β) (k j : κ) (f : Option β → β) :
    (t.update k f).get? j =
      if index k = index j then some (f (t.get? k)) else t.get? j :=
  get?_write t k j _ _

theorem get?_erase (t : Table κ β) (k j : κ) :
    (t.erase k).get? j = if index k = index j then none else t.get? j := by
  simp only [erase, get?, Std.TreeMap.getElem?_erase, Nat.compare_eq_eq]
  split <;> simp

theorem perm_sortedEntries (t : Table κ β) : t.entries.Perm t.sortedEntries := by
  have h := (List.mergeSort_perm (t.sortedEntries.map fun e => (t.place e, e))
    fun a b => a.1 ≤ b.1).map Prod.snd
  simpa [entries, Function.comp_def] using h

theorem mem_sortedEntries {t : Table κ β} {e : κ × β} :
    e ∈ t.sortedEntries ↔ t.cells[index e.1]? = some e := by
  simp only [sortedEntries, List.mem_map, Prod.exists, exists_eq_right]
  constructor
  · rintro ⟨i, h⟩
    have h := Std.TreeMap.mem_toList_iff_getElem?_eq_some.1 h
    rwa [t.keyed h]
  · exact fun h => ⟨_, Std.TreeMap.mem_toList_iff_getElem?_eq_some.2 h⟩

theorem mem_entries {t : Table κ β} {e : κ × β} :
    e ∈ t.entries ↔ t.cells[index e.1]? = some e :=
  t.perm_sortedEntries.mem_iff.trans mem_sortedEntries

theorem get?_eq_some_iff (t : Table κ β) (k : κ) (v : β) :
    t.get? k = some v ↔ ∃ k', index k' = index k ∧ (k', v) ∈ t.entries := by
  simp only [get?, Option.map_eq_some_iff, mem_entries]
  constructor
  · rintro ⟨⟨k', v⟩, h, rfl⟩
    have hk := t.keyed h
    exact ⟨k', hk, by rwa [hk]⟩
  · rintro ⟨k', hk, h⟩
    exact ⟨(k', v), by rwa [hk] at h, rfl⟩

theorem pairwise_sortedEntries (t : Table κ β) :
    t.sortedEntries.Pairwise fun e f => index e.1 < index f.1 := by
  refine List.pairwise_map.2 (List.Pairwise.imp_of_mem ?_
    (Std.TreeMap.ordered_keys_toList (t := t.cells)))
  rintro ⟨i, e⟩ ⟨j, f⟩ he hf h
  have he := t.keyed (Std.TreeMap.mem_toList_iff_getElem?_eq_some.1 he)
  have hf := t.keyed (Std.TreeMap.mem_toList_iff_getElem?_eq_some.1 hf)
  simpa [he, hf, Nat.compare_eq_lt] using h

theorem distinct_entries (t : Table κ β) :
    t.entries.Pairwise fun e f => index e.1 ≠ index f.1 :=
  (t.perm_sortedEntries.pairwise_iff fun h => h.symm).2
    (t.pairwise_sortedEntries.imp Nat.ne_of_lt)

@[simp] theorem length_entries (t : Table κ β) : t.entries.length = t.size := by
  rw [t.perm_sortedEntries.length_eq]
  simp [sortedEntries, size]

end Table

end TypedTree
