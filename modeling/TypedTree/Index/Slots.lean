import Std.Data.TreeMap.Lemmas

/-!
# Slots

A table lists its entries by the slots that they lie in, and `Slots` says which slot
that is. Every index has a row of slots that it would like to lie in, from its `spread`
on; the first free one is taken (`put`). A table that is nearly full is doubled before
the next entry comes (`makeRoom`): all indices are then put again, in the order of the
slots that they lay in. An index keeps its slot until it is erased or the table grows.

Which slot an entry lies in decides the order of a listing and nothing else, so nothing
that a table answers rests on this module.
-/

namespace TypedTree

/-- The indices of a table, each in a slot. -/
structure Slots where
  /-- The number of slots: none, or a power of two. -/
  count : Nat := 0
  /-- The index in each slot that is taken. -/
  taken : Std.TreeMap Nat Nat := ∅

namespace Slots

instance : EmptyCollection Slots := ⟨{}⟩

instance : Inhabited Slots := ⟨∅⟩

/-- How many slots may be taken. One stays free in a small table, and an eighth of
them in a larger one. -/
def capacity (s : Slots) : Nat := if s.count < 8 then s.count - 1 else s.count / 8 * 7

/-- A number that spreads neighbouring indices over the slots: the high bits of a
product with an odd constant. -/
def spread (i : Nat) : Nat := (i * 0xf1357aea2e62a9c5 % UInt64.size) >>> 38

/-- The slot that comes `n`-th among those for the index `i`. Sixteen neighbours from
the spread of the index on come first, then sixteen that start 16 further, then sixteen
that start 32 further still, and so on around the table. -/
def choice (s : Slots) (i n : Nat) : Nat :=
  let round := n / 16
  (spread i + 8 * (round * (round + 1)) + n % 16) % s.count

/-- The first of the choices `n`, `n + 1`, … for the index `i` that satisfies `p`,
among the given number of them. -/
def firstChoice (s : Slots) (p : Nat → Bool) (i : Nat) : Nat → Nat → Option Nat
  | 0, _ => none
  | left + 1, n =>
    let slot := s.choice i n
    if p slot then some slot else s.firstChoice p i left (n + 1)

def first? (s : Slots) (p : Nat → Bool) (i : Nat) : Option Nat :=
  s.firstChoice p i (max s.count 16) 0

def slot? (s : Slots) (i : Nat) : Option Nat := s.first? (fun slot => s.taken[slot]? == some i) i

/-- Puts the index `i`, which must be new, into the first of its choices that is free. -/
def put (s : Slots) (i : Nat) : Slots :=
  match s.first? (fun slot => !s.taken.contains slot) i with
  | some slot => { s with taken := s.taken.insert slot i }
  | none => s

/-- The same indices in twice as many slots, and in four if there were none. -/
def double (s : Slots) : Slots := s.taken.values.foldl put { count := max 4 (2 * s.count) }

/-- Doubles the slots if as many are taken as may be. -/
def makeRoom (s : Slots) : Slots := if s.taken.size < s.capacity then s else s.double

def erase (s : Slots) (i : Nat) : Slots :=
  match s.slot? i with
  | some slot => { s with taken := s.taken.erase slot }
  | none => s

theorem firstChoice_eq_some {s : Slots} {p : Nat → Bool} {i left n slot : Nat}
    (h : s.firstChoice p i left n = some slot) : p slot = true := by
  induction left generalizing n with
  | zero => simp [firstChoice] at h
  | succ left ih =>
      simp only [firstChoice] at h
      split at h
      · rename_i hp
        exact Option.some.inj h ▸ hp
      · exact ih h

theorem taken_of_slot? {s : Slots} {i slot : Nat} (h : s.slot? i = some slot) :
    s.taken[slot]? = some i := by
  simpa using firstChoice_eq_some h

end Slots

end TypedTree
