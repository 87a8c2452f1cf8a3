/-!
# Source spans

A span is the byte range `start..stop` of a translation unit. `Span.ofRange?`
admits the ranges that fit the 32-bit layout and run forward; `len`, `contains`
and `merge` also answer for spans that run backward, which are empty.
-/

namespace TypedTree

/-- A half-open byte range. A span whose `stop` precedes its `start` is empty. -/
structure Span where
  /-- The first byte. -/
  start : Nat
  /-- The byte after the last one. -/
  stop : Nat
  deriving DecidableEq, Repr, Inhabited

inductive SpanError where
  | startTooLarge (start : Nat)
  | endTooLarge (stop : Nat)
  | reversed (start stop : Nat)
  deriving DecidableEq, Repr

def SpanError.name : SpanError → String
  | .startTooLarge _ => "StartTooLarge"
  | .endTooLarge _ => "EndTooLarge"
  | .reversed _ _ => "Reversed"

def SpanError.message : SpanError → String
  | .startTooLarge start => s!"span start {start} exceeds u32::MAX"
  | .endTooLarge stop => s!"span end {stop} exceeds u32::MAX"
  | .reversed start stop => s!"span end {stop} precedes start {start}"

namespace Span

/-- The span of a node that has no source text. -/
def dummy : Span := ⟨0, 0⟩

def limit : Nat := UInt32.size - 1

/-- The span of a byte range. The order of the ends is looked at first, then
the start, then the end. -/
def ofRange? (start stop : Nat) : Except SpanError Span :=
  if stop < start then .error (.reversed start stop)
  else if limit < start then .error (.startTooLarge start)
  else if limit < stop then .error (.endTooLarge stop)
  else .ok ⟨start, stop⟩

def len (s : Span) : Nat := s.stop - s.start

def isEmpty (s : Span) : Bool := s.stop ≤ s.start

def contains (s t : Span) : Bool := s.start ≤ t.start && t.stop ≤ s.stop

/-- The least span that covers the ends of both. -/
def merge (s t : Span) : Span := ⟨min s.start t.start, max s.stop t.stop⟩

def text (s : Span) : String := s!"{s.start}..{s.stop}"

theorem isEmpty_iff_len_eq_zero (s : Span) : s.isEmpty = true ↔ s.len = 0 := by
  simp only [isEmpty, len, decide_eq_true_eq]
  omega

theorem contains_iff {s t : Span} :
    s.contains t = true ↔ s.start ≤ t.start ∧ t.stop ≤ s.stop := by
  simp [contains]

theorem contains_merge (s t : Span) :
    (s.merge t).contains s = true ∧ (s.merge t).contains t = true :=
  ⟨contains_iff.2 ⟨Nat.min_le_left .., Nat.le_max_left ..⟩,
    contains_iff.2 ⟨Nat.min_le_right .., Nat.le_max_right ..⟩⟩

/-- A range makes a span exactly if it runs forward and fits, and then it is that
span. -/
theorem ofRange?_eq_ok_iff {start stop : Nat} {s : Span} :
    ofRange? start stop = .ok s ↔
      start ≤ stop ∧ stop ≤ limit ∧ s = ⟨start, stop⟩ := by
  unfold ofRange?
  split
  · simp; omega
  · split
    · simp; omega
    · split
      · simp; omega
      · simp only [Except.ok.injEq]
        constructor
        · rintro rfl; exact ⟨by omega, by omega, rfl⟩
        · rintro ⟨_, _, rfl⟩; rfl

end Span

end TypedTree
