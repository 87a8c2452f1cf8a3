import Mathlib.Data.Finset.Card
import TypedTree.Fault
import TypedTree.Proofs.Calls
import TypedTree.Ty.Pool

/-!
# Interning

An `Interner` holds a list of items and gives each item a handle, which is the position of the
item in the list. It takes a new item at the end of the list. So its handles number the items
in the order in which they first came (`Interner.held_calls`), and equal handles mean equal
items (`Faithful`). Name tables and type pools are such interners, one of which starts with the
empty text and the other with the builtin types.
-/

namespace TypedTree

section Interner

variable {σ α ι : Type}

/-- `intern` gives an item its position in the list `held`, at the end of which it puts a new
item. `read?` looks a handle up. -/
structure Interner (intern : σ → α → ι × σ) (read? : σ → ι → Option α) (number : ι → Nat)
    (held : σ → List α) : Prop where
  number_injective : ∀ {h k}, number h = number k → h = k
  read?_eq : ∀ s h, read? s h = (held s)[number h]?
  read?_intern : ∀ s x, read? (intern s x).2 (intern s x).1 = some x
  intern_of_mem : ∀ {s x}, x ∈ held s → (intern s x).2 = s
  held_intern_of_notMem : ∀ {s x}, x ∉ held s → held (intern s x).2 = held s ++ [x]

/-- What interning `items` one after another gives and leaves, if the store `s` held `initial`
before. -/
structure Faithful [DecidableEq α] (intern : σ → α → ι × σ) (read? : σ → ι → Option α)
    (number : ι → Nat) (s : σ) (initial items : List α) : Prop where
  /-- No item has two handles. -/
  unique : ∀ {h k x}, read? (calls intern s items).2 h = some x →
    read? (calls intern s items).2 k = some x → h = k
  /-- Two calls give the same handle exactly if they are for the same item. -/
  eq_iff : ∀ c ∈ (calls intern s items).1, ∀ d ∈ (calls intern s items).1,
    c.2 = d.2 ↔ c.1 = d.1
  /-- The handle that a call gives leads back to the item, whatever calls follow. -/
  lasting : ∀ c ∈ (calls intern s items).1, ∀ later,
    read? (calls intern s (items ++ later)).2 c.2 = some c.1
  /-- A further call for an item gives the handle that the item has, and changes nothing. -/
  again : ∀ x ∈ initial ++ items, ∃ h, read? (calls intern s items).2 h = some x ∧
    intern (calls intern s items).2 x = (h, (calls intern s items).2)
  /-- Handles number the initial items and then the others in the order in which they first
  came. -/
  dense : ∀ i x, (initial ++ (items.filter (· ∉ initial)).eraseDups)[i]? = some x ↔
    ∃ h, number h = i ∧ read? (calls intern s items).2 h = some x

variable {intern : σ → α → ι × σ} {read? : σ → ι → Option α} {number : ι → Nat}
  {held : σ → List α} {s : σ} {x : α} {h k : ι}

namespace Interner

theorem getElem?_held_intern (hi : Interner intern read? number held) {i : Nat}
    (hx : (held s)[i]? = some x) (y : α) : (held (intern s y).2)[i]? = some x := by
  by_cases hy : y ∈ held s
  · rwa [hi.intern_of_mem hy]
  · obtain ⟨hlt, -⟩ := List.getElem?_eq_some_iff.1 hx
    rwa [hi.held_intern_of_notMem hy, List.getElem?_append_left hlt]

theorem nodup_intern (hi : Interner intern read? number held) (s : σ) (x : α)
    (hs : (held s).Nodup) : (held (intern s x).2).Nodup := by
  by_cases hx : x ∈ held s
  · rwa [hi.intern_of_mem hx]
  · rw [hi.held_intern_of_notMem hx, ← List.concat_eq_append]
    exact hs.concat hx

theorem read?_intern_of_read? (hi : Interner intern read? number held)
    (hx : read? s h = some x) (y : α) : read? (intern s y).2 h = some x := by
  rw [hi.read?_eq] at hx ⊢
  exact hi.getElem?_held_intern hx y

theorem eq_of_read? (hi : Interner intern read? number held) (hs : (held s).Nodup)
    (hh : read? s h = some x) (hk : read? s k = some x) : h = k := by
  rw [hi.read?_eq] at hh hk
  obtain ⟨hlt, -⟩ := List.getElem?_eq_some_iff.1 hh
  exact hi.number_injective ((List.getElem?_inj hlt hs).1 (hh.trans hk.symm))

theorem exists_intern_eq (hi : Interner intern read? number held) (hx : x ∈ held s) :
    ∃ h, read? s h = some x ∧ intern s x = (h, s) := by
  have hsame := hi.intern_of_mem hx
  have hread := hi.read?_intern s x
  rw [hsame] at hread
  exact ⟨_, hread, Prod.ext rfl hsame⟩

theorem nodup_calls (hi : Interner intern read? number held) (hs : (held s).Nodup)
    (items : List α) : (held (calls intern s items).2).Nodup :=
  calls_invariant hi.nodup_intern hs

theorem read?_of_mem_calls (hi : Interner intern read? number held) (s : σ) (items : List α) :
    ∀ c ∈ (calls intern s items).1, read? (calls intern s items).2 c.2 = some c.1 :=
  forall_mem_calls (P := fun c s => read? s c.2 = some c.1) hi.read?_intern
    fun _ _ y hx => hi.read?_intern_of_read? hx y

variable [DecidableEq α]

/-- The items held in the end are those held before and then the new ones, in the order in
which they first came. -/
theorem held_calls (hi : Interner intern read? number held) (s : σ) (items : List α) :
    held (calls intern s items).2 = held s ++ (items.filter (· ∉ held s)).eraseDups := by
  induction items generalizing s with
  | nil => simp [calls]
  | cons x items ih =>
      rw [calls_cons, ih]
      by_cases hx : x ∈ held s
      · rw [hi.intern_of_mem hx]
        simp [hx]
      · have hrest : items.filter (· ∉ held s ++ [x]) =
            (items.filter (· ∉ held s)).filter (fun y => !y == x) := by
          rw [List.filter_filter]
          exact List.filter_congr fun y _ => by simp [Bool.and_comm, beq_eq_decide]
        rw [hi.held_intern_of_notMem hx, hrest, List.filter_cons_of_pos (by simpa using hx),
          List.eraseDups_cons, List.append_assoc, List.singleton_append]

theorem mem_held_calls (hi : Interner intern read? number held) {items : List α} :
    x ∈ held (calls intern s items).2 ↔ x ∈ held s ++ items := by
  rw [hi.held_calls]
  by_cases hx : x ∈ held s <;> simp [hx]

theorem faithful (hi : Interner intern read? number held) (hs : (held s).Nodup)
    (items : List α) : Faithful intern read? number s (held s) items := by
  have hnodup := hi.nodup_calls hs items
  have hread := hi.read?_of_mem_calls s items
  have hheld := hi.held_calls s items
  refine ⟨hi.eq_of_read? hnodup, fun c hc d hd => ?_, fun c hc later => ?_, fun x hx => ?_,
    fun i x => ?_⟩
  · constructor
    · intro heq
      exact Option.some.inj ((hread c hc).symm.trans (heq ▸ hread d hd))
    · intro heq
      exact hi.eq_of_read? hnodup (hread c hc) (heq ▸ hread d hd)
  · rw [calls_append]
    exact calls_invariant (P := fun s => read? s c.2 = some c.1)
      (fun _ y hx => hi.read?_intern_of_read? hx y) (hread c hc)
  · exact hi.exists_intern_eq (hi.mem_held_calls.2 hx)
  · rw [← hheld]
    constructor
    · intro hx
      obtain ⟨h, hh, -⟩ := hi.exists_intern_eq (List.mem_of_getElem? hx)
      have hnumber := hh
      rw [hi.read?_eq] at hnumber
      obtain ⟨hlt, -⟩ := List.getElem?_eq_some_iff.1 hx
      exact ⟨h, ((List.getElem?_inj hlt hnodup).1 (hx.trans hnumber.symm)).symm, hh⟩
    · rintro ⟨h, rfl, hh⟩
      rwa [← hi.read?_eq]

end Interner

end Interner

namespace NameTable

theorem mem_texts_iff {t : NameTable} {s : String} :
    s ∈ t.texts.toList ↔ ∃ n, t.handles[s]? = some n := by
  simp only [t.inverse, List.mem_iff_getElem?, Array.getElem?_toList]
  exact ⟨fun ⟨i, hi⟩ => ⟨⟨i⟩, hi⟩, fun ⟨n, hn⟩ => ⟨n.raw, hn⟩⟩

/-- A text that stood twice would have two handles. -/
theorem nodup_texts (t : NameTable) : t.texts.toList.Nodup := by
  refine List.pairwise_iff_getElem.2 fun i j hi hj hlt heq => ?_
  have hfst : t.handles[t.texts.toList[i]]? = some ⟨i⟩ := by simp [t.inverse]
  have hsnd : t.handles[t.texts.toList[j]]? = some ⟨j⟩ := by simp [t.inverse]
  rw [heq, hsnd, Option.some.injEq, Name.mk.injEq] at hfst
  exact Nat.ne_of_gt hlt hfst

theorem intern_of_mem {t : NameTable} {s : String} (hs : s ∈ t.texts.toList) :
    (t.intern s).2 = t := by
  unfold intern
  split
  · rfl
  · next hnone =>
      obtain ⟨n, hn⟩ := mem_texts_iff.1 hs
      cases hnone.symm.trans hn

theorem texts_intern_of_notMem {t : NameTable} {s : String} (hs : s ∉ t.texts.toList) :
    (t.intern s).2.texts.toList = t.texts.toList ++ [s] := by
  unfold intern
  split
  · next n hn => exact absurd (mem_texts_iff.2 ⟨n, hn⟩) hs
  · exact Array.toList_push

theorem interner : Interner intern text? Name.raw fun t => t.texts.toList where
  number_injective h := congrArg Name.mk h
  read?_eq _ _ := (Array.getElem?_toList).symm
  read?_intern := text?_intern
  intern_of_mem := intern_of_mem
  held_intern_of_notMem := texts_intern_of_notMem

theorem lookup_eq_ok_iff {t : NameTable} {n : Name} {s : String} :
    t.lookup n = .ok s ↔ t.text? n = some s := by
  unfold lookup
  cases t.text? n <;> simp

theorem exists_lookup_eq_ok_iff {t : NameTable} {n : Name} :
    (∃ s, t.lookup n = .ok s) ↔ n.raw < t.size := by
  simp only [lookup_eq_ok_iff, text?, ← Option.isSome_iff_exists]
  simp [size]

def ofTexts (texts : List String) : NameTable := (calls intern .new texts).2

/-- A table holds the empty text and each text once that was interned. -/
theorem size_ofTexts (texts : List String) :
    (ofTexts texts).size = (texts.toFinset.erase "").card + 1 := by
  have hnodup := (ofTexts texts).nodup_texts
  have hset : (ofTexts texts).texts.toList.toFinset = insert "" (texts.toFinset.erase "") := by
    ext s
    rw [ofTexts, List.mem_toFinset, interner.mem_held_calls]
    by_cases hs : s = "" <;> simp [hs, new, push]
  rw [size, ← Array.length_toList, ← List.toFinset_card_of_nodup hnodup, hset,
    Finset.card_insert_of_notMem (Finset.notMem_erase _ _)]

/-- Texts that are interned one after another get the numbers in which they first come, after
the empty text, and a handle can be looked up exactly if a text has it. The handles that the
table keeps for the texts are at each time those that lead to them. -/
theorem faithful_texts (texts : List String) :
    Faithful intern text? Name.raw .new [""] texts ∧ (ofTexts texts).text? .empty = some "" ∧
      (∀ s n, (ofTexts texts).handles[s]? = some n ↔ (ofTexts texts).text? n = some s) ∧
      (∀ n s, (ofTexts texts).lookup n = .ok s ↔ (ofTexts texts).text? n = some s) ∧
      (∀ n, (∃ s, (ofTexts texts).lookup n = .ok s) ↔ n.raw < (ofTexts texts).size) ∧
      (ofTexts texts).size = (texts.toFinset.erase "").card + 1 := by
  refine ⟨interner.faithful (nodup_texts .new) texts, ?_, fun _ _ => (ofTexts texts).inverse,
    fun _ _ => lookup_eq_ok_iff, fun _ => exists_lookup_eq_ok_iff, size_ofTexts texts⟩
  exact calls_invariant (P := fun t : NameTable => t.text? .empty = some "")
    (fun _ s h => text?_intern_of_text? h s) rfl

end NameTable

namespace TypePool

theorem mem_types_iff {p : TypePool} {ty : Ty} :
    ty ∈ p.types.toList ↔ ∃ t, p.get? t = some ty := by
  rw [List.mem_iff_getElem?]
  constructor
  · rintro ⟨i, hi⟩
    exact ⟨⟨i⟩, by rwa [get?, ← Array.getElem?_toList]⟩
  · rintro ⟨t, ht⟩
    exact ⟨t.raw, by rwa [Array.getElem?_toList]⟩

theorem intern_of_mem {p : TypePool} {ty : Ty} (h : ty ∈ p.types.toList) :
    (p.intern ty).2 = p := by
  unfold intern
  split
  · rfl
  · next hnone =>
      obtain ⟨t, ht⟩ := mem_types_iff.1 h
      exact absurd ht (find?_eq_none_iff.1 hnone t)

theorem types_intern_of_notMem {p : TypePool} {ty : Ty} (h : ty ∉ p.types.toList) :
    (p.intern ty).2.types.toList = p.types.toList ++ [ty] := by
  unfold intern
  split
  · next t hsome => exact absurd (mem_types_iff.2 ⟨t, get?_of_find? hsome⟩) h
  · simp [push]

theorem interner : Interner intern get? TypeId.raw fun p => p.types.toList where
  number_injective h := congrArg TypeId.mk h
  read?_eq _ _ := (Array.getElem?_toList).symm
  read?_intern := get?_intern
  intern_of_mem := intern_of_mem
  held_intern_of_notMem := types_intern_of_notMem

theorem types_new : new.types.toList = builtins := rfl

theorem nodup_builtins : builtins.Nodup := by decide

def ofTypes (tys : List Ty) : TypePool := (calls intern .new tys).2

theorem get?_ofTypes_of_builtins {i : Nat} {ty : Ty} (h : builtins[i]? = some ty)
    (tys : List Ty) : (ofTypes tys).get? ⟨i⟩ = some ty := by
  rw [← types_new, Array.getElem?_toList] at h
  exact calls_invariant (P := fun p : TypePool => p.get? ⟨i⟩ = some ty)
    (fun _ u h => get?_intern_of_get? h u) h

/-- Types that are interned one after another get the numbers in which they first come, after
the builtin types, which keep the positions that they are known by. -/
theorem faithful_types (tys : List Ty) :
    Faithful intern get? TypeId.raw .new builtins tys ∧
      builtins.length = TypeId.builtinCount ∧
      (∀ i ty, builtins[i]? = some ty → (ofTypes tys).get? ⟨i⟩ = some ty) ∧
      (ofTypes tys).get? .void = some (.builtin .void) ∧
      (ofTypes tys).get? .never = some (.builtin .never) ∧
      (ofTypes tys).get? .error = some .error :=
  ⟨interner.faithful nodup_builtins tys, rfl, fun _ _ h => get?_ofTypes_of_builtins h tys,
    get?_ofTypes_of_builtins (i := 0) rfl tys, get?_ofTypes_of_builtins (i := 1) rfl tys,
    get?_ofTypes_of_builtins (i := 6) rfl tys⟩

end TypePool

end TypedTree
