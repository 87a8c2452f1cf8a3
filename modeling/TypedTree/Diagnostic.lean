import TypedTree.Span
import TypedTree.Word

/-!
# Diagnostics

A `Diagnostic` is a message under an `ErrorCode` with labelled spans, notes and
suggestions, in the order in which they were added. `Diagnostic.text` is the whole
in writing.
-/

namespace TypedTree

/-- The codes of diagnostics. The first digit names who is at fault: 2 the program
being compiled, 9 the compiler. -/
inductive ErrorCode where
  /-- A type does not conform to a required trait. -/
  | e2009
  /-- A constraint was left unsolved. -/
  | e9002
  deriving DecidableEq, Repr

namespace ErrorCode

def text : ErrorCode → String
  | .e2009 => "E2009"
  | .e9002 => "E9002"

instance : Worded ErrorCode where
  all := [.e2009, .e9002]
  word := text
  find?_word c := by cases c <;> decide

def isTypeError : ErrorCode → Bool
  | .e2009 => true
  | .e9002 => false

def isInternal : ErrorCode → Bool
  | .e2009 => false
  | .e9002 => true

/-- The code that a text names, in either case of its letter. No letter but the
two cases of `E` has `E` as its upper case, so other letters need no table. -/
def ofText? (s : String) : Option ErrorCode := Worded.ofWord? s.toUpper

end ErrorCode

/-- The proof that something went wrong and was reported. -/
inductive ErrorGuarantee where
  | reported
  deriving DecidableEq, Repr

namespace ErrorGuarantee

/-- The proof that at least one error was reported, if one was. -/
def ofCount? (count : Nat) : Option ErrorGuarantee :=
  if 0 < count then some .reported else none

def text : ErrorGuarantee → String
  | .reported => "error(s) emitted"

end ErrorGuarantee

structure Label where
  span : Span
  message : String
  /-- Whether this is where the error lies, and not related context. -/
  isPrimary : Bool
  deriving DecidableEq, Repr

/-- A label in writing. An arrow points at the error itself. -/
def Label.text (l : Label) : String :=
  let marker := if l.isPrimary then "-->" else "   "
  s!"{marker} {l.span.text}: {l.message}"

structure Diagnostic where
  code : ErrorCode
  message : String := ""
  labels : List Label := []
  notes : List String := []
  /-- Hints for mending the error. -/
  suggestions : List String := []
  deriving DecidableEq, Repr

namespace Diagnostic

def withMessage (d : Diagnostic) (message : String) : Diagnostic :=
  { d with message := message }

/-- Adds the place of the error. -/
def withLabel (d : Diagnostic) (span : Span) (message : String) : Diagnostic :=
  { d with labels := d.labels ++ [⟨span, message, true⟩] }

/-- Adds a place that has to do with the error. -/
def withSecondaryLabel (d : Diagnostic) (span : Span) (message : String) : Diagnostic :=
  { d with labels := d.labels ++ [⟨span, message, false⟩] }

def withNote (d : Diagnostic) (note : String) : Diagnostic :=
  { d with notes := d.notes ++ [note] }

def withSuggestion (d : Diagnostic) (suggestion : String) : Diagnostic :=
  { d with suggestions := d.suggestions ++ [suggestion] }

def primarySpan? (d : Diagnostic) : Option Span :=
  (d.labels.find? Label.isPrimary).map Label.span

def isInternal (d : Diagnostic) : Bool := d.code.isInternal

/-- A diagnostic in writing: the message, then a line for each label, note and
suggestion. -/
def text (d : Diagnostic) : String :=
  let labels := d.labels.map fun l => "\n  " ++ l.text
  let notes := d.notes.map fun n => "\n  = note: " ++ n
  let suggestions := d.suggestions.map fun s => "\n  = help: " ++ s
  s!"error [{d.code.text}]: {d.message}" ++
    String.join (labels ++ notes ++ suggestions)

end Diagnostic

end TypedTree
