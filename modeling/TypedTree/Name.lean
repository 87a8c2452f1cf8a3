import Std.Data.TreeMap.Lemmas

/-!
# Names

Identifiers are handles into a `NameTable`, so that two of them are compared as
numbers. `NameTable.intern` gives a text its handle, the same one each time, and
`NameTable.text?` reads a handle back; a handle that no table made has no text.

A table keeps the texts by their handles and the handles by their texts. Its field
`inverse` says that the one leads back from the other, so that no text has two handles.
-/

namespace TypedTree

/-- The handle of an interned text. -/
structure Name where
  /-- The position of the text in its table. -/
  raw : Nat
  deriving DecidableEq, Repr, Inhabited

namespace Name

/-- The handle of the empty text, the same in every table. -/
def empty : Name := ⟨0⟩

def text (n : Name) : String := s!"Name({n.raw})"

end Name

/-- Texts in the order in which they first came. -/
structure NameTable where
  /-- The text of each handle. -/
  texts : Array String := #[]
  /-- The handle of each text. -/
  handles : Std.TreeMap String Name := ∅
  inverse : ∀ {s : String} {n : Name},
    handles[s]? = some n ↔ texts[n.raw]? = some s := by simp

namespace NameTable

variable {t : NameTable} {s u : String} {n : Name}

def size (t : NameTable) : Nat := t.texts.size

def text? (t : NameTable) (n : Name) : Option String := t.texts[n.raw]?

theorem inverse_push (h : t.handles[s]? = none) :
    (t.handles.insert s ⟨t.size⟩)[u]? = some n ↔ (t.texts.push s)[n.raw]? = some u := by
  obtain ⟨i⟩ := n
  rw [Std.TreeMap.getElem?_insert, Array.getElem?_push]
  simp only [Std.LawfulEqCmp.compare_eq_iff_eq]
  by_cases hu : s = u
  · subst hu
    have hold : t.texts[i]? ≠ some s := fun hi => by
      rw [← t.inverse (n := ⟨i⟩), h] at hi
      cases hi
    by_cases hlast : i = t.texts.size
    · simp [hlast, size]
    · simp [hlast, hold, size, Ne.symm hlast]
  · rw [if_neg hu, t.inverse]
    by_cases hlast : i = t.texts.size
    · simp [hlast, hu]
    · rw [if_neg hlast]

def push (t : NameTable) (s : String) (h : t.handles[s]? = none) : NameTable :=
  ⟨t.texts.push s, t.handles.insert s ⟨t.size⟩, inverse_push h⟩

def new : NameTable := push {} "" rfl

instance : Inhabited NameTable := ⟨new⟩

/-- The handle of a text, which a new text takes next in line. -/
def intern (t : NameTable) (s : String) : Name × NameTable :=
  match h : t.handles[s]? with
  | some n => (n, t)
  | none => (⟨t.size⟩, t.push s h)

theorem text?_intern (t : NameTable) (s : String) :
    (t.intern s).2.text? (t.intern s).1 = some s := by
  unfold intern
  split
  · exact t.inverse.1 ‹_›
  · exact Array.getElem?_push_size

theorem text?_intern_of_text? (h : t.text? n = some u) (s : String) :
    (t.intern s).2.text? n = some u := by
  unfold intern
  split
  · exact h
  · obtain ⟨hlt, heq⟩ := Array.getElem?_eq_some_iff.1 h
    simp only [text?, push]
    rw [Array.getElem?_push_lt hlt, heq]

end NameTable

end TypedTree
