import Std.Data.TreeMap.Lemmas
import TypedTree.Fault
import TypedTree.Ty.Basic

/-!
# Type pools

A `TypePool` holds every type once. `intern` gives a type its reference, the same
one each time, and `get?` reads a reference back. The builtin types are there from
the start, at the positions that `TypeId` names.

The pool keeps an index of its types by `Ty.fingerprint`, in which `find?` looks a type
up; `find?_eq_none_iff` says that it misses none.
-/

namespace TypedTree

/-- A number read off a type, which different types seldom share. -/
def Ty.fingerprint : Ty → Nat
  | .builtin _ | .error => 0
  | .module d => d.index
  | .product d => d.index
  | .trait d => d.index
  | .genericParameter d => d.index
  | .tuple components => components.foldl (fun n c => n + c.ty.raw + 1) 0
  | .lambda s | .subscript _ s => s.inputs.foldl (fun n i => n + i.ty.raw + 1) s.output.raw

/-- Types in the order in which they first came. -/
structure TypePool where
  types : Array Ty := #[]
  /-- The references to the types of each fingerprint. -/
  places : Std.TreeMap Nat (List TypeId) := ∅
  /-- Every type is found under its fingerprint. -/
  placed : ∀ {i : Nat} {ty : Ty}, types[i]? = some ty →
    ⟨i⟩ ∈ (places[ty.fingerprint]?).getD [] := by simp

namespace TypePool

def size (p : TypePool) : Nat := p.types.size

def get? (p : TypePool) (t : TypeId) : Option Ty := p.types[t.raw]?

def contains (p : TypePool) (t : TypeId) : Bool := t.raw < p.size

def type (p : TypePool) (t : TypeId) : Except Fault Ty :=
  match p.get? t with
  | some ty => .ok ty
  | none => .error (.unknownType t)

def find? (p : TypePool) (ty : Ty) : Option TypeId :=
  (p.places[ty.fingerprint]?.getD []).find? fun t => p.get? t == some ty

/-- The references to the types of each fingerprint, with a type at the end besides. -/
def placesWith (p : TypePool) (ty : Ty) : Std.TreeMap Nat (List TypeId) :=
  p.places.insert ty.fingerprint (⟨p.size⟩ :: p.places[ty.fingerprint]?.getD [])

theorem placed_push {p : TypePool} {ty u : Ty} {i : Nat}
    (h : (p.types.push ty)[i]? = some u) :
    ⟨i⟩ ∈ ((p.placesWith ty)[u.fingerprint]?).getD [] := by
  rw [Array.getElem?_push] at h
  rw [placesWith, Std.TreeMap.getElem?_insert]
  split at h
  · cases h
    simp [size, *]
  · have hplaced := p.placed h
    split
    · rename_i heq
      rw [Nat.compare_eq_eq.1 heq]
      exact List.mem_cons_of_mem _ hplaced
    · exact hplaced

def push (p : TypePool) (ty : Ty) : TypePool :=
  let places := p.placesWith ty
  ⟨p.types.push ty, places, placed_push⟩

/-- The reference to a type, which a new type takes next in line. -/
def intern (p : TypePool) (ty : Ty) : TypeId × TypePool :=
  match p.find? ty with
  | some t => (t, p)
  | none => (⟨p.size⟩, p.push ty)

/-- The types that every pool starts with, in the order of their positions. -/
def builtins : List Ty :=
  [.builtin .void, .builtin .never, .builtin .bool, .builtin .int, .builtin .float,
    .builtin .string, .error]

def new : TypePool := builtins.foldl push {}

instance : Inhabited TypePool := ⟨new⟩

theorem get?_of_find? {p : TypePool} {ty : Ty} {t : TypeId} (h : p.find? ty = some t) :
    p.get? t = some ty := by
  simpa using List.find?_some h

theorem find?_eq_none_iff {p : TypePool} {ty : Ty} :
    p.find? ty = none ↔ ∀ t, p.get? t ≠ some ty := by
  constructor
  · intro h t ht
    simpa [ht] using List.find?_eq_none.1 h t (p.placed ht)
  · intro h
    exact List.find?_eq_none.2 fun t _ => by simpa using h t

theorem get?_intern (p : TypePool) (ty : Ty) :
    (p.intern ty).2.get? (p.intern ty).1 = some ty := by
  unfold intern
  split
  · exact get?_of_find? ‹_›
  · simp [get?, size, push]

theorem get?_intern_of_get? {p : TypePool} {t : TypeId} {u : Ty} (h : p.get? t = some u)
    (ty : Ty) : (p.intern ty).2.get? t = some u := by
  unfold intern
  split
  · exact h
  · obtain ⟨hlt, heq⟩ := Array.getElem?_eq_some_iff.1 h
    simp only [get?, push]
    rw [Array.getElem?_push_lt hlt, heq]

theorem isSome_get? (p : TypePool) (t : TypeId) : (p.get? t).isSome = p.contains t := by
  rw [Bool.eq_iff_iff, contains, decide_eq_true_iff]
  simp [get?, size]

end TypePool

end TypedTree
